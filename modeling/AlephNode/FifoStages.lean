import AlephNode.LabelledRuns

/-!
# Stages of first-in first-out queues

A stage keeps the order of what it holds and may lose some of it. Stages that follow each
other form a stage again; and over a whole run of one, what has left it is, in order, part
of what has entered it.
-/
namespace AlephNode

universe u v w

/-- What leaves the stage and what it holds afterwards is, in order, part of what it held and
what enters it. -/
def Relays {α : Type w} (held enters leaves held' : List α) : Prop :=
  (leaves ++ held').Sublist (held ++ enters)

namespace Relays
variable {α : Type w} {β : Type*} {held held' enters leaves first first' second second'
  middle : List α}

theorem idle : Relays held [] [] held := by
  rw [Relays, List.append_nil, List.nil_append]

theorem lost (h : held'.Sublist held) : Relays held [] [] held' := by
  rw [Relays, List.append_nil]
  exact h

theorem enter (held enters : List α) : Relays held enters [] (held ++ enters) :=
  List.Sublist.refl _

theorem leave (leaves held' : List α) : Relays (leaves ++ held') [] leaves held' := by
  rw [Relays, List.append_nil]

/-- What leaves the first stage enters the second one, which is nearer to the end. -/
theorem comp (hsecond : Relays second middle leaves second')
    (hfirst : Relays first enters middle first') :
    Relays (second ++ first) enters leaves (second' ++ first') := by
  have hbefore : (leaves ++ second' ++ first').Sublist (second ++ middle ++ first') :=
    hsecond.append_right first'
  have hafter : (second ++ (middle ++ first')).Sublist (second ++ (first ++ enters)) :=
    hfirst.append_left second
  rw [Relays, ← List.append_assoc, List.append_assoc second]
  rw [List.append_assoc second] at hbefore
  exact hbefore.trans hafter

theorem andThen {held'' enters' leaves' : List α} (h : Relays held enters leaves held')
    (h' : Relays held' enters' leaves' held'') :
    Relays held (enters ++ enters') (leaves ++ leaves') held'' := by
  have hlast : (leaves ++ (leaves' ++ held'')).Sublist (leaves ++ (held' ++ enters')) :=
    h'.append_left leaves
  rw [← List.append_assoc leaves held'] at hlast
  rw [Relays, List.append_assoc, ← List.append_assoc held]
  exact hlast.trans (h.append_right enters')

theorem enters_mono {enters' : List α} (h : Relays held enters leaves held')
    (hsub : enters.Sublist enters') : Relays held enters' leaves held' :=
  h.trans (hsub.append_left held)

theorem leaves_mono {leaves' : List α} (h : Relays held enters leaves held')
    (hsub : leaves'.Sublist leaves) : Relays held enters leaves' held' :=
  (hsub.append_right held').trans h

theorem filterMap (f : α → Option β) (h : Relays held enters leaves held') :
    Relays (held.filterMap f) (enters.filterMap f) (leaves.filterMap f) (held'.filterMap f) := by
  rw [Relays, ← List.filterMap_append, ← List.filterMap_append]
  exact List.Sublist.filterMap f h

end Relays

/-- If the states hold what a stage holds, and what has left it, then in a run what has left is, in
order, part of what has entered. The labels tell what enters. -/
theorem Run.relayed {σ : Type u} {ε : Type v} {α : Type w} {step : σ → ε → σ → Prop} {s t : σ}
    {events : List ε} {enters : ε → Option α} (held left : σ → List α) (inv : σ → Prop)
    (hinit : inv s) (hheld : held s = []) (hleft : left s = [])
    (hstep : ∀ s e t, inv s → step s e t → inv t ∧ ∃ leaves, left t = left s ++ leaves ∧
      Relays (held s) (enters e).toList leaves (held t))
    (h : Run step s events t) : (left t).Sublist (events.reverse.filterMap enters) := by
  have hall : inv t ∧ Relays [] (events.reverse.filterMap enters) (left t) (held t) := by
    induction h with
    | refl =>
      rw [hheld, hleft]
      exact ⟨hinit, .idle⟩
    | @tail es t e u run last ih =>
      obtain ⟨hinv, hrelays⟩ := ih
      obtain ⟨hinv', leaves, hleaves, hlast⟩ := hstep _ _ _ hinv last
      refine ⟨hinv', ?_⟩
      have henters : [e].filterMap enters = (enters e).toList := by
        cases h : enters e <;> simp [h]
      rw [List.reverse_cons, List.filterMap_append, henters, hleaves]
      exact hrelays.andThen hlast
  exact (List.sublist_append_left _ _).trans hall.2

end AlephNode
