import Mathlib.Data.List.Nodup
import Mathlib.Data.Nat.Notation
import Mathlib.Logic.Function.Basic

/-!
# A ledger of messages

Messages enter a store one after the other. A message is sent at once, or registered under
the next number; a registered message is sent later, or forgotten. The ledger keeps for
every message that entered what became of it. The store is known here by the messages that
are pending under a number, and by those that were sent, in order.
-/
namespace AlephNode

/-- What became of a message: it was sent as the message at a position, it is pending under
a number, or it was forgotten there. -/
inductive Fate where
  | sent (position : ℕ)
  | pending (id : ℕ)
  | forgotten (id : ℕ)
  deriving DecidableEq

namespace Fate

/-- The position or the number that belongs to one message only. -/
def slot : Fate → ℕ ⊕ ℕ
  | sent position => .inl position
  | pending id => .inr id
  | forgotten id => .inr id

/-- How a fate may change while only the numbers in `dropped` are forgotten. -/
inductive Turns (dropped : ℕ → Prop) : Fate → Fate → Prop
  | kept (fate) : Turns dropped fate fate
  | sent (id position) : Turns dropped (pending id) (sent position)
  | forgotten {id} (h : dropped id) : Turns dropped (pending id) (forgotten id)

theorem Turns.trans {dropped : ℕ → Prop} {f g h : Fate} (hfg : Turns dropped f g)
    (hgh : Turns dropped g h) : Turns dropped f h := by
  cases hfg with
  | kept => exact hgh
  | sent id position =>
    cases hgh with
    | kept => exact .sent id position
  | forgotten hdropped =>
    cases hgh with
    | kept => exact .forgotten hdropped

theorem Turns.mono {dropped dropped' : ℕ → Prop} (hsub : ∀ id, dropped id → dropped' id)
    {f g : Fate} (h : Turns dropped f g) : Turns dropped' f g := by
  cases h with
  | kept => exact .kept f
  | sent id position => exact .sent id position
  | forgotten hdropped => exact .forgotten (hsub _ hdropped)

def redirect (old new fate : Fate) : Fate := if fate = old then new else fate

theorem redirect_turns {dropped : ℕ → Prop} {old new : Fate} (h : Turns dropped old new)
    (fate : Fate) : Turns dropped fate (redirect old new fate) := by
  unfold redirect
  split
  · next he => exact he ▸ h
  · exact .kept fate

end Fate

section Entries
variable {Message : Type*} {dropped : ℕ → Prop}

/-- The entries of a ledger after the fates of its messages have changed. -/
def turned (turn : Fate → Fate) (entries : List (Message × Fate)) : List (Message × Fate) :=
  entries.map (fun e => (e.1, turn e.2))

def Advances (dropped : ℕ → Prop) (before after : List (Message × Fate)) : Prop :=
  ∃ turn : Fate → Fate, (∀ fate, Fate.Turns dropped fate (turn fate)) ∧ after = turned turn before

theorem Advances.refl (entries : List (Message × Fate)) : Advances dropped entries entries :=
  ⟨id, .kept, by simp [turned]⟩

theorem Advances.trans {before middle after : List (Message × Fate)}
    (h : Advances dropped before middle) (h' : Advances dropped middle after) :
    Advances dropped before after := by
  obtain ⟨turn, hturn, rfl⟩ := h
  obtain ⟨turn', hturn', rfl⟩ := h'
  exact ⟨turn' ∘ turn, fun fate => (hturn fate).trans (hturn' _), by simp [turned]⟩

theorem Advances.mono {dropped' : ℕ → Prop} (hsub : ∀ id, dropped id → dropped' id)
    {before after : List (Message × Fate)} (h : Advances dropped before after) :
    Advances dropped' before after := by
  obtain ⟨turn, hturn, rfl⟩ := h
  exact ⟨turn, fun fate => (hturn fate).mono hsub, rfl⟩

theorem Advances.map_fst {before after : List (Message × Fate)}
    (h : Advances dropped before after) : after.map Prod.fst = before.map Prod.fst := by
  obtain ⟨turn, _, rfl⟩ := h
  simp [turned]

theorem mem_turned_redirect {old new : Fate} {entries : List (Message × Fate)} {m : Message}
    {fate : Fate} : (m, fate) ∈ turned (Fate.redirect old new) entries ↔
      ((m, fate) ∈ entries ∧ fate ≠ old) ∨ (fate = new ∧ (m, old) ∈ entries) := by
  simp only [turned, List.mem_map, Prod.mk.injEq, Fate.redirect]
  constructor
  · intro h
    obtain ⟨⟨m', fate'⟩, hmem, rfl, hfate⟩ := h
    split at hfate
    · next he => exact .inr ⟨hfate.symm, he ▸ hmem⟩
    · next hne =>
      subst hfate
      exact .inl ⟨hmem, hne⟩
  · intro h
    obtain ⟨hmem, hne⟩ | ⟨rfl, hmem⟩ := h
    · exact ⟨(m, fate), hmem, rfl, if_neg hne⟩
    · exact ⟨(m, old), hmem, rfl, if_pos rfl⟩

end Entries

/-- The ledger tells of every pending and of every sent message which of the messages that
entered it is, and no two messages share a position or a number. -/
structure Accounted {Message : Type*} (entries : List (Message × Fate)) (next : ℕ)
    (pending : ℕ → Option Message) (sent : List Message) : Prop where
  pending_iff : ∀ id m, pending id = some m ↔ (m, .pending id) ∈ entries
  sent_iff : ∀ position m, sent[position]? = some m ↔ (m, .sent position) ∈ entries
  once : (entries.map (fun e => e.2.slot)).Nodup
  registered_lt : ∀ e ∈ entries, ∀ id, e.2.slot = .inr id → id < next

namespace Accounted
variable {Message : Type*} {entries : List (Message × Fate)} {next : ℕ}
  {pending : ℕ → Option Message} {sent : List Message} {id : ℕ} {m : Message}

theorem empty : Accounted ([] : List (Message × Fate)) 0 (fun _ => none) [] := by
  constructor <;> simp

private theorem once_turned (h : Accounted entries next pending sent) {turn : Fate → Fate}
    (hinj : ∀ e ∈ entries, ∀ e' ∈ entries, (turn e.2).slot = (turn e'.2).slot →
      e.2.slot = e'.2.slot) :
    ((turned turn entries).map (fun e => e.2.slot)).Nodup := by
  rw [turned, List.map_map]
  apply List.Nodup.map_on
  · intro e he e' he' hsame
    exact List.inj_on_of_nodup_map h.once he he' (hinj e he e' he' hsame)
  · exact .of_map _ h.once

private theorem position_lt (h : Accounted entries next pending sent) {e : Message × Fate}
    (he : e ∈ entries) {position : ℕ} (hslot : e.2.slot = .inl position) :
    position < sent.length := by
  obtain ⟨m, fate⟩ := e
  cases fate with
  | sent position' =>
    cases hslot
    exact (List.getElem?_eq_some_iff.mp ((h.sent_iff position m).mpr he)).1
  | pending => cases hslot
  | forgotten => cases hslot

private theorem getElem?_concat (sent : List Message) (m m' : Message) (position : ℕ) :
    (sent ++ [m])[position]? = some m' ↔
      sent[position]? = some m' ∨ (position = sent.length ∧ m' = m) := by
  rw [List.getElem?_append]
  split
  · next hlt => simp [Nat.ne_of_lt hlt]
  · next hle =>
    rw [List.getElem?_eq_none (Nat.not_lt.mp hle)]
    by_cases hposition : position = sent.length
    · simp [hposition, eq_comm]
    · have hpos : position - sent.length ≠ 0 := by omega
      simp [hposition, hpos]

theorem release (h : Accounted entries next pending sent) (hm : pending id = some m) :
    Accounted (turned (Fate.redirect (.pending id) (.sent sent.length)) entries) next
      (Function.update pending id none) (sent ++ [m]) := by
  constructor
  · intro id' m'
    rw [mem_turned_redirect, ← h.pending_iff, Function.update_apply]
    by_cases hid : id' = id <;> simp [hid]
  · intro position m'
    rw [mem_turned_redirect, ← h.sent_iff, ← h.pending_iff, hm, getElem?_concat]
    simp [eq_comm]
  · apply h.once_turned
    intro e he e' he' hsame
    unfold Fate.redirect at hsame
    split_ifs at hsame with hold hold' hold'
    · rw [hold, hold']
    · exact absurd (h.position_lt he' hsame.symm) (Nat.lt_irrefl _)
    · exact absurd (h.position_lt he hsame) (Nat.lt_irrefl _)
    · exact hsame
  · intro e he id' hslot
    obtain ⟨e', he', rfl⟩ := List.mem_map.mp he
    apply h.registered_lt e' he'
    unfold Fate.redirect at hslot
    split at hslot
    · cases hslot
    · exact hslot

/-- What is pending under a number is forgotten, if there is anything. -/
theorem forget (h : Accounted entries next pending sent) (id : ℕ) :
    Accounted (turned (Fate.redirect (.pending id) (.forgotten id)) entries) next
      (Function.update pending id none) sent := by
  have hslot : ∀ fate, (Fate.redirect (.pending id) (.forgotten id) fate).slot = fate.slot := by
    intro fate
    unfold Fate.redirect
    split
    · next he => rw [he]; rfl
    · rfl
  constructor
  · intro id' m'
    rw [mem_turned_redirect, ← h.pending_iff, Function.update_apply]
    by_cases hid : id' = id <;> simp [hid]
  · intro position m'
    rw [mem_turned_redirect, h.sent_iff]
    simp
  · apply h.once_turned
    intro e _ e' _ hsame
    rwa [hslot, hslot] at hsame
  · intro e he id' hid'
    obtain ⟨e', he', rfl⟩ := List.mem_map.mp he
    rw [hslot] at hid'
    exact h.registered_lt e' he' id' hid'

theorem deliver (h : Accounted entries next pending sent) (m : Message) :
    Accounted (entries ++ [(m, .sent sent.length)]) next pending (sent ++ [m]) := by
  constructor
  · intro id' m'
    simp [h.pending_iff]
  · intro position m'
    rw [List.mem_append, ← h.sent_iff, getElem?_concat]
    simp [and_comm]
  · rw [List.map_append, List.nodup_append]
    refine ⟨h.once, by simp, ?_⟩
    intro slot hslot slot' hslot' hsame
    obtain ⟨e, he, rfl⟩ := List.mem_map.mp hslot
    rw [List.map_singleton, List.mem_singleton] at hslot'
    exact absurd (h.position_lt he (hsame.trans hslot')) (Nat.lt_irrefl _)
  · intro e he id' hslot
    rcases List.mem_append.mp he with he | he
    · exact h.registered_lt e he id' hslot
    · rw [List.mem_singleton.mp he] at hslot
      cases hslot

/-- A message is registered under the next number as it enters. -/
theorem register (h : Accounted entries next pending sent) (m : Message) :
    Accounted (entries ++ [(m, .pending next)]) (next + 1)
      (Function.update pending next (some m)) sent := by
  constructor
  · intro id' m'
    rw [List.mem_append, ← h.pending_iff, Function.update_apply]
    by_cases hid : id' = next
    · subst hid
      have hfresh : pending id' ≠ some m' := fun hpending =>
        absurd (h.registered_lt _ ((h.pending_iff id' m').mp hpending) id' rfl) (Nat.lt_irrefl _)
      simp [hfresh, eq_comm]
    · simp [hid]
  · intro position m'
    simp [h.sent_iff]
  · rw [List.map_append, List.nodup_append]
    refine ⟨h.once, by simp, ?_⟩
    intro slot hslot slot' hslot' hsame
    obtain ⟨e, he, rfl⟩ := List.mem_map.mp hslot
    rw [List.map_singleton, List.mem_singleton] at hslot'
    exact absurd (h.registered_lt e he next (hsame.trans hslot')) (Nat.lt_irrefl _)
  · intro e he id' hslot
    rcases List.mem_append.mp he with he | he
    · exact Nat.lt_succ_of_lt (h.registered_lt e he id' hslot)
    · rw [List.mem_singleton.mp he] at hslot
      cases hslot
      exact Nat.lt_succ_self _

theorem release_all (h : Accounted entries next pending sent) {ids : List ℕ} (hnodup : ids.Nodup)
    (due : ℕ → Prop) [DecidablePred due] :
    ∃ entries', Advances (fun _ => False) entries entries' ∧
      Accounted entries' next (fun id => if id ∈ ids ∧ due id then none else pending id)
        (sent ++ ids.filterMap (fun id => if due id then pending id else none)) := by
  induction ids generalizing entries pending sent with
  | nil => exact ⟨entries, .refl _, by simpa using h⟩
  | cons id ids ih =>
    obtain ⟨hfresh, hrest⟩ := List.nodup_cons.mp hnodup
    have hnow : ∃ m?, m? = if due id then pending id else none := ⟨_, rfl⟩
    obtain ⟨m?, hm?⟩ := hnow
    cases m? with
    | none =>
      -- nothing is sent for this number
      obtain ⟨entries', hadvances, haccounted⟩ := ih h hrest
      refine ⟨entries', hadvances, ?_⟩
      rw [List.filterMap_cons, ← hm?]
      convert haccounted using 2 with id'
      by_cases hid : id' = id
      · subst hid
        by_cases hdue : due id'
        · rw [if_pos hdue] at hm?
          simp [hdue, ← hm?]
        · simp [hdue]
      · simp [hid]
    | some m =>
      have hdue : due id := by
        by_contra hnot
        simp [hnot] at hm?
      rw [if_pos hdue] at hm?
      obtain ⟨entries', hadvances, haccounted⟩ := ih (h.release hm?.symm) hrest
      refine ⟨entries', .trans ⟨_, Fate.redirect_turns (.sent id sent.length), rfl⟩ hadvances, ?_⟩
      have hsame : ids.filterMap (fun id' =>
          if due id' then Function.update pending id none id' else none) =
          ids.filterMap (fun id' => if due id' then pending id' else none) := by
        apply List.filterMap_congr
        intro id' hid'
        have hne : id' ≠ id := fun he => hfresh (he ▸ hid')
        rw [Function.update_of_ne hne]
      rw [hsame, List.append_assoc, List.singleton_append] at haccounted
      rw [List.filterMap_cons, if_pos hdue, ← hm?]
      convert haccounted using 1
      funext id'
      by_cases hid : id' = id
      · simp [hid, hdue]
      · simp [hid]

end Accounted
end AlephNode
