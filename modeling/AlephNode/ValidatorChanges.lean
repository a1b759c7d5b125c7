import AlephNode.AlephPallet
import AlephNode.LabelledRuns

/-!
# Changes of validators

A change is accepted, may be replaced by a later one, and is delivered when the session
pallet asks for the validators of a session that is late enough. The two stored values
always come and go together, so that what is stored is the change that the history leaves
to be delivered.
-/
namespace AlephNode.AlephPallet

variable {AccountId AuthorityId : Type}

inductive Call (AccountId : Type) where
  | changeValidators (origin : Origin AccountId) (validators : List AccountId) (session : UInt32)
  | newSession (session : UInt32) (answer : Option (List AccountId))

def Call.accepted : Call AccountId → Bool
  | .changeValidators .root _ _ => true
  | _ => false

def Call.delivers : Call AccountId → Bool
  | .newSession _ answer => answer.isSome
  | _ => false

inductive Step : AlephPallet AccountId AuthorityId → Call AccountId →
    AlephPallet AccountId AuthorityId → Prop
  | changeValidators {pallet : AlephPallet AccountId AuthorityId} (origin validators session) :
      Step pallet (.changeValidators origin validators session)
        (pallet.changeValidators origin validators session).1
  | newSession {pallet pallet' : AlephPallet AccountId AuthorityId} {session answer}
      (run : pallet.newSession session = .ok (answer, pallet')) :
      Step pallet (.newSession session answer) pallet'

def Start (initial : AlephPallet AccountId AuthorityId) : Prop :=
  initial = empty ∨ ∃ config, initial = empty.build config

/-- The change was accepted before the calls `later`, or comes from genesis. -/
def AcceptedBefore (initial : AlephPallet AccountId AuthorityId) (calls later : List (Call AccountId))
    (validators : List AccountId) (session : UInt32) : Prop :=
  (∃ earlier, calls = later ++ .changeValidators .root validators session :: earlier) ∨
  (calls = later ∧ initial.validators = some validators ∧
    initial.sessionForValidatorsChange = some session)

/-- The most recent accepted change has not been delivered. -/
def Undelivered (initial : AlephPallet AccountId AuthorityId) (calls : List (Call AccountId))
    (validators : List AccountId) (session : UInt32) : Prop :=
  ∃ later, AcceptedBefore initial calls later validators session ∧
    ∀ call ∈ later, call.accepted = false ∧ call.delivers = false

def Stores (pallet : AlephPallet AccountId AuthorityId)
    (change : Option (List AccountId × UInt32)) : Prop :=
  pallet.validators = change.map Prod.fst ∧
    pallet.sessionForValidatorsChange = change.map Prod.snd

def delivery : Option (List AccountId × UInt32) → UInt32 → Option (List AccountId)
  | none, _ => none
  | some (validators, target), session => if target ≤ session then some validators else none

def scheduled (change : Option (List AccountId × UInt32)) :
    Call AccountId → Option (List AccountId × UInt32)
  | .changeValidators .root validators session => some (validators, session)
  | .changeValidators _ _ _ => change
  | .newSession _ answer => if answer.isSome then none else change

section Steps
variable {initial pallet pallet' : AlephPallet AccountId AuthorityId} {call : Call AccountId}
  {calls later : List (Call AccountId)} {validators : List AccountId} {session target : UInt32}
  {answer : Option (List AccountId)} {change : Option (List AccountId × UInt32)}

/-- Whoever asks for validators gets what the scheduled change delivers. -/
theorem Stores.newSession (h : Stores pallet change) (session : UInt32) :
    ∃ pallet', pallet.newSession session = .ok (delivery change session, pallet') ∧
      Stores pallet' (scheduled change (.newSession session (delivery change session))) := by
  obtain ⟨hvalidators, hsession⟩ := h
  cases change with
  | none =>
    dsimp only [Option.map_none] at hsession
    exact ⟨pallet, by simp only [AlephPallet.newSession, hsession, delivery], hvalidators, hsession⟩
  | some change =>
    obtain ⟨validators, target⟩ := change
    dsimp only [Option.map_some] at hvalidators hsession
    simp only [AlephPallet.newSession, hsession, hvalidators, delivery]
    by_cases hle : target ≤ session
    · simp only [if_pos hle]
      exact ⟨_, rfl, rfl, rfl⟩
    · simp only [if_neg hle]
      exact ⟨_, rfl, hvalidators, hsession⟩

theorem Stores.step (h : Stores pallet change) (hstep : Step pallet call pallet') :
    Stores pallet' (scheduled change call) ∧
      ∀ session answer, call = .newSession session answer → answer = delivery change session := by
  cases hstep with
  | changeValidators origin validators session =>
    refine ⟨?_, by simp⟩
    cases origin with
    | root => exact ⟨rfl, rfl⟩
    | signed | none => exact h
  | newSession run =>
    obtain ⟨pallet'', hnew, hstores⟩ := h.newSession _
    rw [run, Except.ok.injEq, Prod.mk.injEq] at hnew
    obtain ⟨rfl, rfl⟩ := hnew
    refine ⟨hstores, ?_⟩
    intro session answer hcall
    cases hcall
    rfl

end Steps

section Runs
variable {initial pallet pallet' : AlephPallet AccountId AuthorityId} {call : Call AccountId}
  {calls later : List (Call AccountId)} {validators : List AccountId} {session target : UInt32}
  {answer : Option (List AccountId)} {change : Option (List AccountId × UInt32)}

theorem stores_start (h : Start initial) : ∃ change, Stores initial change := by
  obtain rfl | ⟨config, rfl⟩ := h
  · exact ⟨none, rfl, rfl⟩
  · exact ⟨some (config.validators, 0), rfl, rfl⟩

/-- The stored values are at all times those of one scheduled change, or of none. -/
theorem stores_of_run (h : Start initial) (hrun : Run Step initial calls pallet) :
    ∃ change, Stores pallet change := by
  apply hrun.invariant (fun pallet => ∃ change, Stores pallet change) (stores_start h)
  intro _ _ _ hstores hstep
  obtain ⟨change, hstores⟩ := hstores
  exact ⟨_, (hstores.step hstep).1⟩

/-- After a change was stored, it is still there, or has been delivered once. -/
inductive Outcome (validators : List AccountId) (target : UInt32)
    (later : List (Call AccountId)) (pallet : AlephPallet AccountId AuthorityId) : Prop
  | waiting (stored : Stores pallet (some (validators, target)))
      (undelivered : ∀ call ∈ later, call.delivers = false)
  | delivered {session : UInt32} (stored : Stores pallet none) (reached : target ≤ session)
      (once : later.filter Call.delivers = [.newSession session (some validators)])

theorem Outcome.step (h : Outcome validators target later pallet) (hstep : Step pallet call pallet')
    (hcurrent : call.accepted = false) : Outcome validators target (call :: later) pallet' := by
  cases h with
  | waiting stored undelivered =>
    obtain ⟨hstores, hanswer⟩ := stored.step hstep
    cases call with
    | changeValidators origin other session =>
      have hsame : scheduled (some (validators, target)) (.changeValidators origin other session) =
          some (validators, target) := by
        cases origin with
        | root => cases hcurrent
        | signed | none => rfl
      rw [hsame] at hstores
      exact .waiting hstores (List.forall_mem_cons.mpr ⟨rfl, undelivered⟩)
    | newSession session answer =>
      have hdelivery := hanswer session answer rfl
      by_cases hle : target ≤ session
      · have hsome : answer = some validators := by rw [hdelivery, delivery, if_pos hle]
        subst hsome
        have hbefore : later.filter Call.delivers = [] :=
          List.filter_eq_nil_iff.mpr (fun c hc => by simp [undelivered c hc])
        refine .delivered hstores hle ?_
        rw [List.filter_cons, hbefore]
        rfl
      · have hnone : answer = none := by rw [hdelivery, delivery, if_neg hle]
        subst hnone
        exact .waiting hstores (List.forall_mem_cons.mpr ⟨rfl, undelivered⟩)
  | delivered stored reached once =>
    obtain ⟨hstores, hanswer⟩ := stored.step hstep
    cases call with
    | changeValidators origin other session =>
      have hsame : scheduled none (.changeValidators origin other session) = none := by
        cases origin with
        | root => cases hcurrent
        | signed | none => rfl
      rw [hsame] at hstores
      exact .delivered hstores reached once
    | newSession session answer =>
      have hnone : answer = none := hanswer session answer rfl
      subst hnone
      exact .delivered hstores reached once

theorem outcome_of_run (hstored : Stores initial (some (validators, target)))
    (hrun : Run Step initial later pallet) (hcurrent : ∀ call ∈ later, call.accepted = false) :
    Outcome validators target later pallet := by
  induction hrun with
  | refl => exact .waiting hstored (by simp)
  | tail hrun hstep ih =>
    rw [List.forall_mem_cons] at hcurrent
    exact (ih hcurrent.2).step hstep hcurrent.1

/-- The run since a change was accepted begins with the change stored. -/
theorem AcceptedBefore.run (h : AcceptedBefore initial calls later validators target)
    (hrun : Run Step initial calls pallet) : ∃ accepted,
      Stores accepted (some (validators, target)) ∧ Run Step accepted later pallet := by
  obtain ⟨earlier, rfl⟩ | ⟨rfl, hstored⟩ := h
  · obtain ⟨accepted, haccepted, hlater⟩ := Run.append_iff.mp hrun
    obtain ⟨before, _, hstep⟩ := Run.cons_iff.mp haccepted
    cases hstep
    exact ⟨_, ⟨rfl, rfl⟩, hlater⟩
  · exact ⟨initial, hstored, hrun⟩

theorem Stores.unique {change' : Option (List AccountId × UInt32)} (h : Stores pallet change)
    (h' : Stores pallet change') : change = change' := by
  obtain ⟨hvalidators, hsession⟩ := h
  obtain ⟨hvalidators', hsession'⟩ := h'
  rw [hvalidators] at hvalidators'
  rw [hsession] at hsession'
  cases change <;> cases change' <;> simp_all [Prod.ext_iff]

/-- A call that neither accepts nor delivers a change leaves the history of the change. -/
theorem Undelivered.cons (h : Undelivered initial calls validators target)
    (hcall : call.accepted = false ∧ call.delivers = false) :
    Undelivered initial (call :: calls) validators target := by
  obtain ⟨later, haccepted, hquiet⟩ := h
  refine ⟨call :: later, ?_, List.forall_mem_cons.mpr ⟨hcall, hquiet⟩⟩
  obtain ⟨earlier, rfl⟩ | ⟨rfl, hstored⟩ := haccepted
  · exact .inl ⟨earlier, rfl⟩
  · exact .inr ⟨rfl, hstored⟩

theorem undelivered_of_stores (hstart : Start initial) (hrun : Run Step initial calls pallet)
    (hstored : Stores pallet (some (validators, target))) :
    Undelivered initial calls validators target := by
  induction hrun with
  | refl => exact ⟨[], .inr ⟨rfl, hstored⟩, by simp⟩
  | @tail calls before call after hrun hstep ih =>
    obtain ⟨change, hbefore⟩ := stores_of_run hstart hrun
    obtain ⟨hafter, hanswer⟩ := hbefore.step hstep
    have hchange := hafter.unique hstored
    have hkept : scheduled change call = change → call.accepted = false →
        call.delivers = false → Undelivered initial (call :: calls) validators target := by
      intro hsame haccepted hdelivers
      rw [hsame] at hchange
      rw [hchange] at hbefore
      exact (ih hbefore).cons ⟨haccepted, hdelivers⟩
    cases call with
    | changeValidators origin other session =>
      cases origin with
      | root =>
        cases hchange
        exact ⟨[], .inl ⟨calls, rfl⟩, by simp⟩
      | signed | none => exact hkept rfl rfl rfl
    | newSession session answer =>
      cases answer with
      | none => exact hkept rfl rfl rfl
      | some delivered => cases hchange

theorem stores_of_undelivered (hrun : Run Step initial calls pallet)
    (h : Undelivered initial calls validators target) :
    Stores pallet (some (validators, target)) := by
  obtain ⟨later, haccepted, hquiet⟩ := h
  obtain ⟨accepted, hstored, hlater⟩ := haccepted.run hrun
  cases outcome_of_run hstored hlater (fun call hmem => (hquiet call hmem).1) with
  | waiting stored => exact stored
  | @delivered session _ _ once =>
    have hmem : Call.newSession session (some validators) ∈ later.filter Call.delivers := by
      rw [once]
      exact List.mem_singleton_self _
    have hdelivers := (hquiet _ (List.mem_filter.mp hmem).1).2
    cases hdelivers

theorem delivery_eq_some : delivery change session = some validators ↔
    ∃ target, change = some (validators, target) ∧ target ≤ session := by
  cases change with
  | none => simp [delivery]
  | some change =>
    obtain ⟨validators', target⟩ := change
    by_cases hle : target ≤ session
    · simp [delivery, hle]
    · simp [delivery, hle]

theorem Outcome.once (h : Outcome validators target later pallet) :
    (later.filter Call.delivers).length ≤ 1 := by
  cases h with
  | waiting _ undelivered =>
    rw [List.filter_eq_nil_iff.mpr (fun c hc => by simp [undelivered c hc])]
    exact Nat.zero_le _
  | delivered _ _ once =>
    rw [once]
    exact Nat.le_refl _

/-- What is delivered as long as a change is not replaced is that change. -/
theorem Outcome.delivers (h : Outcome validators target later pallet) {delivered : List AccountId}
    (hmem : .newSession session (some delivered) ∈ later) :
    delivered = validators ∧ target ≤ session := by
  cases h with
  | waiting _ undelivered => cases undelivered _ hmem
  | delivered _ reached once =>
    have hfilter : Call.newSession session (some delivered) ∈ later.filter Call.delivers :=
      List.mem_filter.mpr ⟨hmem, rfl⟩
    rw [once, List.mem_singleton] at hfilter
    cases hfilter
    exact ⟨rfl, reached⟩

/-- The first call for the session of a change, or for a later one, delivers it. -/
theorem delivered_first {between after : List (Call AccountId)}
    (hstored : Stores initial (some (validators, target)))
    (hrun : Run Step initial (after ++ .newSession session answer :: between) pallet)
    (hcurrent : ∀ call ∈ after ++ .newSession session answer :: between, call.accepted = false)
    (hreached : target ≤ session) (hbetween : ∀ s a, .newSession s a ∈ between → s < target) :
    answer = some validators := by
  obtain ⟨answered, hanswered, _⟩ := Run.append_iff.mp hrun
  obtain ⟨asked, hasked, hstep⟩ := Run.cons_iff.mp hanswered
  have hquiet : ∀ call ∈ between, call.accepted = false := by
    intro call hmem
    exact hcurrent call (List.mem_append_right _ (List.mem_cons_of_mem _ hmem))
  cases outcome_of_run hstored hasked hquiet with
  | waiting stored _ =>
    have hanswer := (stored.step hstep).2 session answer rfl
    rw [hanswer, delivery, if_pos hreached]
  | @delivered earlier _ reached once =>
    have hmem : Call.newSession earlier (some validators) ∈ between.filter Call.delivers := by
      rw [once]
      exact List.mem_singleton_self _
    have hlt := hbetween _ _ (List.mem_filter.mp hmem).1
    exact absurd reached (UInt32.not_le.mpr hlt)

/-- The two stored values are both there or both not, so that asking for validators never
fails. The answer is the list of the most recent accepted change if that change has not been
delivered and its session is reached. As long as it is not replaced, a change is delivered at
most once, and by the first call for its session or a later one. Rejected calls change
nothing. -/
theorem validator_changes_delivered (hstart : Start initial)
    (hrun : Run Step initial calls pallet) :
    pallet.validators.isSome = pallet.sessionForValidatorsChange.isSome ∧
    (∀ session, ∃ answer pallet', pallet.newSession session = .ok (answer, pallet') ∧
      ∀ validators, answer = some validators ↔
        ∃ target, Undelivered initial calls validators target ∧ target ≤ session) ∧
    (∀ later validators target, AcceptedBefore initial calls later validators target →
      (∀ call ∈ later, call.accepted = false) →
      (later.filter Call.delivers).length ≤ 1 ∧
      (∀ session answer between after, later = after ++ .newSession session answer :: between →
        target ≤ session → (∀ s a, .newSession s a ∈ between → s < target) →
        answer = some validators) ∧
      ∀ session delivered, .newSession session (some delivered) ∈ later →
        delivered = validators ∧ target ≤ session) ∧
    ∀ origin validators session, origin ≠ .root →
      pallet.changeValidators origin validators session = (pallet, .error .badOrigin) := by
  obtain ⟨change, hchange⟩ := stores_of_run hstart hrun
  refine ⟨?_, ?_, ?_, fun _ _ _ hroot => changeValidators_rejected hroot _ _⟩
  · rw [hchange.1, hchange.2, Option.isSome_map, Option.isSome_map]
  · intro session
    obtain ⟨pallet', hnew, _⟩ := hchange.newSession session
    refine ⟨_, pallet', hnew, ?_⟩
    intro validators
    rw [delivery_eq_some]
    constructor
    · rintro ⟨target, rfl, hle⟩
      exact ⟨target, undelivered_of_stores hstart hrun hchange, hle⟩
    · rintro ⟨target, hundelivered, hle⟩
      exact ⟨target, hchange.unique (stores_of_undelivered hrun hundelivered), hle⟩
  · intro later validators target haccepted hcurrent
    obtain ⟨accepted, hstored, hlater⟩ := haccepted.run hrun
    have houtcome := outcome_of_run hstored hlater hcurrent
    refine ⟨houtcome.once, ?_, fun session delivered hmem => houtcome.delivers hmem⟩
    intro session answer between after hsplit hreached hbetween
    subst hsplit
    exact delivered_first hstored hlater hcurrent hreached hbetween

end Runs

section Example

/-- A change for session 5 is made while the validators from genesis are in office. -/
theorem validator_changes_delivered_one : ∃ pallet : AlephPallet ℕ ℕ,
    Run Step (empty.build ⟨[], 5, 4000, [1]⟩) [.newSession 6 none, .newSession 5 (some [2, 3]),
      .newSession 4 none, .changeValidators .root [2, 3] 5, .newSession 1 none,
      .newSession 0 (some [1])] pallet ∧
    pallet.validators.isSome = pallet.sessionForValidatorsChange.isSome := by
  have hrun : Run Step (empty.build ⟨[], 5, 4000, [1]⟩ : AlephPallet ℕ ℕ) [.newSession 6 none,
      .newSession 5 (some [2, 3]), .newSession 4 none, .changeValidators .root [2, 3] 5,
      .newSession 1 none, .newSession 0 (some [1])] _ :=
    ((((((Run.refl.tail (.newSession rfl)).tail (.newSession rfl)).tail
      (.changeValidators _ _ _)).tail (.newSession rfl)).tail (.newSession rfl)).tail
        (.newSession rfl))
  exact ⟨_, hrun, (validator_changes_delivered (.inr ⟨_, rfl⟩) hrun).1⟩

end Example
end AlephNode.AlephPallet
