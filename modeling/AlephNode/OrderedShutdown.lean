import AlephNode.LabelledRuns

/-!
# Shutting tasks down in order

One task tells the others to exit, one after another, and waits for each of them before it
tells the next. The others may also end before they are told. Whoever is told to exit finds
that all tasks before it in the order have ended.
-/
namespace AlephNode

/-- A one-shot channel for an exit signal. The receiver wakes up when the signal is sent and
also when the sender is dropped. -/
inductive ExitSignal where
  | pending
  | sent
  | dropped
  deriving DecidableEq

/-- Which tasks run, what they were told, and what is still to be done: perhaps a task is
waited for, and then the remaining ones are told. -/
structure Shutdown (τ : Type*) where
  running : τ → Bool
  exits : τ → ExitSignal
  awaiting : Option τ
  remaining : List τ

namespace Shutdown
variable {τ : Type*} [DecidableEq τ]

inductive Event (τ : Type*) where
  | stopped
  | signalled (t : τ)
  | awaited (t : τ)

inductive Step : Shutdown τ → Event τ → Shutdown τ → Prop
  | stopped {s : Shutdown τ} {running} (stops : ∀ t, running t = true → s.running t = true) :
      Step s .stopped { s with running := running }
  | signalled {s : Shutdown τ} {t rest} (free : s.awaiting = none)
      (next : s.remaining = t :: rest) :
      Step s (.signalled t) { s with
        exits := Function.update s.exits t .sent, awaiting := some t, remaining := rest }
  | awaited {s : Shutdown τ} {t} (waits : s.awaiting = some t) (ended : s.running t = false) :
      Step s (.awaited t) { s with awaiting := none }

/-- The tasks that were waited for have ended, and the remaining ones were told nothing. -/
def InOrder (order : List τ) (s : Shutdown τ) : Prop :=
  ∃ finished, order = finished ++ (s.awaiting.toList ++ s.remaining) ∧
    (∀ t ∈ finished, s.running t = false) ∧ ∀ t ∈ s.remaining, s.exits t = .pending

variable {s s' : Shutdown τ} {event : Event τ} {order before after : List τ} {t u : τ}

theorem inOrder_step (hnodup : order.Nodup) (h : InOrder order s) (hstep : Step s event s') :
    InOrder order s' := by
  obtain ⟨finished, horder, hended, hpending⟩ := h
  cases hstep with
  | stopped stops =>
    refine ⟨finished, horder, ?_, hpending⟩
    intro t ht
    rw [← Bool.not_eq_true]
    intro hrunning
    have hbefore := hended t ht
    rw [stops t hrunning] at hbefore
    cases hbefore
  | @signalled t rest free next =>
    rw [free, next] at horder
    refine ⟨finished, horder, hended, ?_⟩
    intro u hu
    have hne : u ≠ t := by
      rintro rfl
      rw [horder] at hnodup
      have hlast := (List.nodup_append.mp hnodup).2.1
      exact (List.nodup_cons.mp hlast).1 hu
    dsimp only
    rw [Function.update_of_ne hne]
    exact hpending u (next ▸ List.mem_cons_of_mem t hu)
  | @awaited t waits ended =>
    refine ⟨finished ++ [t], ?_, ?_, hpending⟩
    · rw [horder, waits]
      simp
    · intro u hu
      obtain hu | hu := List.mem_append.mp hu
      · exact hended u hu
      · rw [List.mem_singleton.mp hu]
        exact ended

omit [DecidableEq τ] in
/-- A task that was told to exit comes after tasks that have ended. -/
theorem InOrder.ended_before (h : InOrder (before ++ t :: after) s) (htold : s.exits t ≠ .pending)
    (hu : u ∈ before) : s.running u = false := by
  obtain ⟨finished, horder, hended, hpending⟩ := h
  apply hended
  obtain ⟨rest, hover, _⟩ | ⟨rest, hbefore, hrest⟩ := List.append_eq_append_iff.mp horder
  · rw [hover]
    exact List.mem_append_left rest hu
  · cases rest with
    | nil =>
      rw [List.append_nil] at hbefore
      exact hbefore ▸ hu
    | cons first rest =>
      -- all but the first of what is left remains to be told
      have hremaining : t ∈ s.remaining := by
        cases hawaiting : s.awaiting with
        | none =>
          rw [hawaiting, Option.toList_none, List.nil_append] at hrest
          simp [hrest]
        | some a =>
          rw [hawaiting, Option.toList_some, List.singleton_append, List.cons_append] at hrest
          simp [(List.cons.inj hrest).2]
      exact absurd (hpending t hremaining) htold

end Shutdown
end AlephNode
