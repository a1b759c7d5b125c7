import Mathlib.Data.List.Basic

/-!
# Runs of labelled transition systems

A run records its labels, the most recent one first. Properties of runs are proved
once here: invariants, invariants that refer to the history of labels, and the exact
guard under which a run never leaves a set of states.
-/
namespace AlephNode

universe u v

/-- `Run step s es t`: the steps labelled `es`, the most recent first, lead from `s` to `t`. -/
inductive Run {σ : Type u} {ε : Type v} (step : σ → ε → σ → Prop) (s : σ) : List ε → σ → Prop
  | refl : Run step s [] s
  | tail {es t e u} (run : Run step s es t) (last : step t e u) : Run step s (e :: es) u

/-- The steps of `step` that meet a condition on the state before them and their label. -/
def Guarded {σ : Type u} {ε : Type v} (step : σ → ε → σ → Prop) (guard : σ → ε → Prop) :
    σ → ε → σ → Prop :=
  fun s e t => guard s e ∧ step s e t

/-- The steps of `step` that end in a given set of states. -/
def EndingIn {σ : Type u} {ε : Type v} (step : σ → ε → σ → Prop) (good : σ → Prop) :
    σ → ε → σ → Prop :=
  fun s e t => step s e t ∧ good t

/-- The steps of `step`, with the history as part of the state: the labels so far, the most
recent first, each with the state before it. -/
def Recording {σ : Type u} {ε : Type v} (step : σ → ε → σ → Prop) :
    List (σ × ε) × σ → ε → List (σ × ε) × σ → Prop :=
  fun s e t => t.1 = (s.2, e) :: s.1 ∧ step s.2 e t.2

/-- The entry is in the history, and these entries came after it. -/
def FollowedBy {α : Type u} (history : List α) (entry : α) (later : List α) : Prop :=
  later ++ [entry] <+: history

theorem followedBy_cons {α : Type u} {history later : List α} {entry last : α} :
    FollowedBy (last :: history) entry later ↔
      later = [] ∧ entry = last ∨ ∃ later', later = last :: later' ∧
        FollowedBy history entry later' := by
  cases later with
  | nil => simp [FollowedBy]
  | cons last' later =>
    constructor
    · intro h
      obtain ⟨rfl, hprefix⟩ := List.cons_prefix_cons.mp h
      exact .inr ⟨later, rfl, hprefix⟩
    · rintro (⟨hnil, _⟩ | ⟨later', hlater, hprefix⟩)
      · cases hnil
      · cases hlater
        exact List.cons_prefix_cons.mpr ⟨rfl, hprefix⟩

namespace Run
variable {σ : Type u} {ε : Type v} {step step' : σ → ε → σ → Prop} {s t u : σ} {es fs : List ε}

theorem cons_iff {e : ε} : Run step s (e :: es) u ↔ ∃ t, Run step s es t ∧ step t e u := by
  constructor
  · intro h
    cases h with
    | tail run last => exact ⟨_, run, last⟩
  · rintro ⟨_, run, last⟩
    exact .tail run last

theorem append_iff : Run step s (fs ++ es) u ↔ ∃ t, Run step s es t ∧ Run step t fs u := by
  induction fs generalizing u with
  | nil =>
    constructor
    · exact fun h => ⟨u, h, .refl⟩
    · rintro ⟨t, hearlier, hlater⟩
      cases hlater
      exact hearlier
  | cons e fs ih =>
    rw [List.cons_append, cons_iff]
    constructor
    · rintro ⟨t, hrun, hlast⟩
      obtain ⟨middle, hearlier, hlater⟩ := ih.mp hrun
      exact ⟨middle, hearlier, hlater.tail hlast⟩
    · rintro ⟨middle, hearlier, hlater⟩
      obtain ⟨t, hlater, hlast⟩ := cons_iff.mp hlater
      exact ⟨t, ih.mpr ⟨middle, hearlier, hlater⟩, hlast⟩

theorem mono (hstep : ∀ s e t, step s e t → step' s e t) (h : Run step s es t) :
    Run step' s es t := by
  induction h with
  | refl => exact .refl
  | tail run last ih => exact .tail ih (hstep _ _ _ last)

/-- A property of the starting state that every step preserves holds at the end. -/
theorem invariant (inv : σ → Prop) (hinit : inv s)
    (hstep : ∀ s e t, inv s → step s e t → inv t) (h : Run step s es t) : inv t := by
  induction h with
  | refl => exact hinit
  | tail run last ih => exact hstep _ _ _ ih last

/-- An invariant may relate the state to the labels that led to it. The run itself is
at hand in the step case. -/
theorem history_invariant (inv : List ε → σ → Prop) (hinit : inv [] s)
    (hstep : ∀ es t e u, Run step s es t → inv es t → step t e u → inv (e :: es) u)
    (h : Run step s es t) : inv es t := by
  induction h with
  | refl => exact hinit
  | tail run last ih => exact hstep _ _ _ _ run ih last

theorem endingIn_good {good : σ → Prop} (h : Run (EndingIn step good) s es t) (hgood : good s) :
    good t := by
  cases h with
  | refl => exact hgood
  | tail run last => exact last.2

/-- If, from good states, exactly the guarded steps end in good states, then the runs
that stay among good states are exactly the runs of guarded steps. -/
theorem endingIn_iff_guarded {good : σ → Prop} {guard : σ → ε → Prop} (hgood : good s)
    (hexact : ∀ s e t, good s → step s e t → (good t ↔ guard s e)) :
    Run (EndingIn step good) s es t ↔ Run (Guarded step guard) s es t := by
  constructor
  · intro h
    have hall : good t ∧ Run (Guarded step guard) s es t := by
      induction h with
      | refl => exact ⟨hgood, .refl⟩
      | tail run last ih =>
        obtain ⟨hg, hr⟩ := ih
        exact ⟨last.2, .tail hr ⟨(hexact _ _ _ hg last.1).mp last.2, last.1⟩⟩
    exact hall.2
  · intro h
    have hall : good t ∧ Run (EndingIn step good) s es t := by
      induction h with
      | refl => exact ⟨hgood, .refl⟩
      | tail run last ih =>
        obtain ⟨hg, hr⟩ := ih
        have hgood' := (hexact _ _ _ hg last.2).mpr last.1
        exact ⟨hgood', .tail hr ⟨last.2, hgood'⟩⟩
    exact hall.2

/-- If a label `c` of a history does not occur after a label `m`, then `m` came after `c`. -/
theorem length_lt_of_split {since later earlier earlier' : List ε} {m c : ε}
    (h : since ++ m :: earlier' = later ++ c :: earlier) (hsince : c ∉ since) (hne : m ≠ c) :
    since.length < later.length := by
  by_contra hlen
  have hc : (since ++ m :: earlier')[later.length]? = some c := by
    rw [h]
    simp
  obtain hlt | heq := Nat.lt_or_eq_of_le (Nat.not_lt.mp hlen)
  · rw [List.getElem?_append_left hlt] at hc
    exact hsince (List.mem_of_getElem? hc)
  · rw [heq, List.getElem?_append_right (Nat.le_refl _)] at hc
    simp only [Nat.sub_self, List.getElem?_cons_zero, Option.some.injEq] at hc
    exact hne hc

end Run
end AlephNode
