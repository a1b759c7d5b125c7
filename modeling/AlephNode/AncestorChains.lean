import Mathlib.Logic.Relation
import Mathlib.Data.List.Chain

/-!
# Ancestors in a forest

A forest is given by the relation between a parent and its child. Elements of one
contiguous chain are comparable, and its last element descends from all of them; a rank
that grows from parent to child decides which of two comparable elements is the ancestor.
-/
namespace AlephNode

variable {α : Type*} {parent : α → α → Prop}

abbrev AncestorOrEqual (parent : α → α → Prop) : α → α → Prop := Relation.ReflTransGen parent

/-- One of the two elements is an ancestor of, or equal to, the other. -/
def OnOneChain (parent : α → α → Prop) (a b : α) : Prop :=
  AncestorOrEqual parent a b ∨ AncestorOrEqual parent b a

section Rank
variable {rank : α → ℕ} (hrank : ∀ p c, parent p c → rank p < rank c)
include hrank

theorem AncestorOrEqual.rank_le {a b : α} (h : AncestorOrEqual parent a b) : rank a ≤ rank b := by
  induction h with
  | refl => exact Nat.le_refl _
  | tail _ hlast ih => exact ih.trans (hrank _ _ hlast).le

theorem AncestorOrEqual.eq_of_rank_le {a b : α} (h : AncestorOrEqual parent a b)
    (hle : rank b ≤ rank a) : a = b := by
  cases h with
  | refl => rfl
  | tail hinit hlast =>
    have hlt := (AncestorOrEqual.rank_le hrank hinit).trans_lt (hrank _ _ hlast)
    omega

theorem OnOneChain.ancestor_of_rank_le {a b : α} (h : OnOneChain parent a b)
    (hle : rank a ≤ rank b) : AncestorOrEqual parent a b := by
  rcases h with h | h
  · exact h
  · rw [AncestorOrEqual.eq_of_rank_le hrank h hle]

end Rank

/-- In a contiguous chain that starts at `a`, every element descends from `a`. -/
theorem ancestor_of_isChain {a : α} {l : List α} (h : (a :: l).IsChain parent) {b : α}
    (hb : b ∈ l) : AncestorOrEqual parent a b := by
  induction l generalizing a with
  | nil => simp at hb
  | cons c l ih =>
    obtain ⟨hac, hl⟩ := List.isChain_cons_cons.mp h
    rcases List.mem_cons.mp hb with rfl | hb
    · exact .single hac
    · exact .head hac (ih hl hb)

/-- In a contiguous chain, the last element descends from every element. -/
theorem ancestor_getLast_of_isChain {l : List α} (h : l.IsChain parent) {b z : α} (hb : b ∈ l)
    (hz : l.getLast? = some z) : AncestorOrEqual parent b z := by
  induction l generalizing b with
  | nil => simp at hb
  | cons c l ih =>
    cases l with
    | nil =>
      simp only [List.getLast?_singleton, Option.some.injEq] at hz
      rw [List.mem_singleton.mp hb, hz]
    | cons d l =>
      obtain ⟨hcd, hl⟩ := List.isChain_cons_cons.mp h
      rw [List.getLast?_cons_cons] at hz
      rcases List.mem_cons.mp hb with rfl | hb
      · exact .head hcd (ih hl List.mem_cons_self hz)
      · exact ih hl hb hz

theorem onOneChain_of_isChain {l : List α} (h : l.IsChain parent) {a b : α}
    (ha : a ∈ l) (hb : b ∈ l) : OnOneChain parent a b := by
  induction l with
  | nil => simp at ha
  | cons c l ih =>
    rcases List.mem_cons.mp ha with hac | hal <;> rcases List.mem_cons.mp hb with hbc | hbl
    · rw [hac, hbc]
      exact .inl .refl
    · rw [hac]
      exact .inl (ancestor_of_isChain h hbl)
    · rw [hbc]
      exact .inr (ancestor_of_isChain h hal)
    · exact ih h.tail hal hbl

/-- In a contiguous chain every element but the first follows its parent. -/
theorem exists_parent_of_isChain {a : α} {l : List α} (h : (a :: l).IsChain parent) {c : α}
    (hc : c ∈ l) : ∃ p ∈ a :: l, parent p c := by
  induction l generalizing a with
  | nil => cases hc
  | cons d l ih =>
    obtain ⟨had, hl⟩ := List.isChain_cons_cons.mp h
    rcases List.mem_cons.mp hc with rfl | hmem
    · exact ⟨a, List.mem_cons_self, had⟩
    · obtain ⟨p, hp, hpc⟩ := ih hl hmem
      exact ⟨p, List.mem_cons_of_mem _ hp, hpc⟩

/-- If every element has one parent only, a contiguous chain holds the ancestors of its elements
down to the first one. -/
theorem mem_of_ancestor_of_isChain {rank : α → ℕ} (hrank : ∀ p c, parent p c → rank p < rank c)
    (hunique : ∀ p q c, parent p c → parent q c → p = q) {a : α} {l : List α}
    (h : (a :: l).IsChain parent) {b c : α} (hc : c ∈ a :: l) (hancestor : AncestorOrEqual parent b c)
    (hle : rank a ≤ rank b) : b ∈ a :: l := by
  induction hancestor with
  | refl => exact hc
  | @tail p c hinit hlast ih =>
    rcases List.mem_cons.mp hc with rfl | hmem
    · have hlow := (AncestorOrEqual.rank_le hrank hinit).trans_lt (hrank _ _ hlast)
      omega
    · obtain ⟨q, hq, hqc⟩ := exists_parent_of_isChain h hmem
      exact ih (hunique q p c hqc hlast ▸ hq)

end AlephNode
