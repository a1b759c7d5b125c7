import AlephNode.FifoStages
import AlephNode.PanicsAndChannels

/-!
# Stages that lose nothing

A stage that keeps the order loses nothing if it has no less afterwards, counted with what
has left it, than before, counted with what has entered. Over a whole run of such a stage,
what was held and what has entered is exactly what has left and what is held in the end.
-/
namespace AlephNode

universe u v w

/-- What is held and what enters is no more than what leaves and what is held afterwards. -/
def Retains {α : Type w} (held enters leaves held' : List α) : Prop :=
  held.length + enters.length ≤ leaves.length + held'.length

/-- A stage that keeps the order and loses nothing only moves what it holds. -/
theorem Relays.conveys {α : Type w} {held enters leaves held' : List α}
    (h : Relays held enters leaves held') (hretains : Retains held enters leaves held') :
    held ++ enters = leaves ++ held' := by
  symm
  apply List.Sublist.eq_of_length_le h
  rw [List.length_append, List.length_append]
  exact hretains

namespace Retains
variable {α : Type w} {β : Type*} {held held' enters leaves first first' second second'
  middle : List α} {f : β → Option α}

theorem idle : Retains held [] [] held := Nat.le_of_eq (Nat.add_comm _ _)

theorem enter (held enters : List α) : Retains held enters [] (held ++ enters) := by
  simp only [Retains, List.length_append, List.length_nil]
  omega

theorem leave (leaves held' : List α) : Retains (leaves ++ held') [] leaves held' := by
  simp only [Retains, List.length_append, List.length_nil]
  omega

/-- What leaves the first stage enters the second one, which is nearer to the end. -/
theorem comp (hsecond : Retains second middle leaves second')
    (hfirst : Retains first enters middle first') :
    Retains (second ++ first) enters leaves (second' ++ first') := by
  simp only [Retains, List.length_append] at hsecond hfirst ⊢
  omega

theorem beside (h : Retains held enters leaves held') (other : List α) :
    Retains (held ++ other) enters leaves (held' ++ other) := by
  simp only [Retains, List.length_append] at h ⊢
  omega

theorem beside' (h : Retains held enters leaves held') (other : List α) :
    Retains (other ++ held) enters leaves (other ++ held') := by
  simp only [Retains, List.length_append] at h ⊢
  omega

theorem grown {queue more : List β} (henters : enters.length ≤ (more.filterMap f).length) :
    Retains (queue.filterMap f) enters [] ((queue ++ more).filterMap f) := by
  simp only [Retains, List.filterMap_append, List.length_append, List.length_nil]
  omega

theorem taken {queue rest : List β} {b : β} (hqueue : queue = b :: rest)
    (hleaves : (f b).toList.length ≤ leaves.length) :
    Retains (queue.filterMap f) [] leaves (rest.filterMap f) := by
  subst hqueue
  have hsplit : (b :: rest).filterMap f = (f b).toList ++ rest.filterMap f := by
    cases h : f b with
    | none => simp [h]
    | some a => simp [h]
  simp only [Retains, hsplit, List.length_append, List.length_nil]
  omega

/-- A channel whose receiver exists takes what is sent to it. -/
theorem sent {c : Channel β} (halive : c.receiverAlive = true) (b : β) :
    Retains (c.messages.filterMap f) (f b).toList [] ((c.sendAll [b]).messages.filterMap f) := by
  rw [Channel.sendAll, if_pos halive]
  apply grown
  cases h : f b with
  | none => simp
  | some a => simp [h]

end Retains

/-- If the states hold what a stage holds that keeps the order and loses nothing, and what has left
it, then what was held in the beginning and has entered in a run has left in this run, or is held in
the end. -/
theorem Run.conveyed {σ : Type u} {ε : Type v} {α : Type w} {step : σ → ε → σ → Prop} {s t : σ}
    {events : List ε} {enters : ε → Option α} (held left : σ → List α) (inv : σ → Prop)
    (hinit : inv s) (hstep : ∀ s e t, inv s → step s e t → inv t ∧ ∃ leaves,
      left t = left s ++ leaves ∧ Relays (held s) (enters e).toList leaves (held t) ∧
        Retains (held s) (enters e).toList leaves (held t))
    (h : Run step s events t) : ∃ leaves, left t = left s ++ leaves ∧
      held s ++ events.reverse.filterMap enters = leaves ++ held t := by
  have hall : inv t ∧ ∃ leaves, left t = left s ++ leaves ∧
      held s ++ events.reverse.filterMap enters = leaves ++ held t := by
    induction h with
    | refl => exact ⟨hinit, [], by simp⟩
    | @tail es t e u run last ih =>
      obtain ⟨hinv, earlier, hearlier, hbefore⟩ := ih
      obtain ⟨hinv', leaves, hleaves, hrelays, hretains⟩ := hstep _ _ _ hinv last
      refine ⟨hinv', earlier ++ leaves, by rw [hleaves, hearlier, List.append_assoc], ?_⟩
      have hlast := hrelays.conveys hretains
      have henters : [e].filterMap enters = (enters e).toList := by
        cases h : enters e <;> simp [h]
      calc held s ++ (e :: es).reverse.filterMap enters
          = (held s ++ es.reverse.filterMap enters) ++ (enters e).toList := by
            simp [List.filterMap_append, henters]
        _ = earlier ++ (held t ++ (enters e).toList) := by
            rw [hbefore, List.append_assoc]
        _ = (earlier ++ leaves) ++ held u := by
            rw [hlast, List.append_assoc]
  exact hall.2

end AlephNode
