import Mathlib.Data.Finset.Card
import Mathlib.Data.Finset.Range

/-!
# Quorum intersection

Among `n` members of which fewer than a third are faulty, two sets of more than two
thirds of the members have a member in common that is not faulty.
-/
namespace AlephNode

theorem exists_honest_in_both {n : ℕ} {faulty left right : Finset ℕ}
    (hleft : left ⊆ Finset.range n) (hright : right ⊆ Finset.range n)
    (hfaulty : 3 * faulty.card < n) (hleft_card : 2 * n / 3 < left.card)
    (hright_card : 2 * n / 3 < right.card) :
    ∃ i, i ∈ left ∧ i ∈ right ∧ i ∉ faulty := by
  have hunion : (left ∪ right).card ≤ n := by
    simpa using Finset.card_le_card (Finset.union_subset hleft hright)
  have hsum := Finset.card_union_add_card_inter left right
  have hmore : faulty.card < (left ∩ right).card := by omega
  obtain ⟨i, hi, hhonest⟩ := Finset.exists_mem_notMem_of_card_lt_card hmore
  obtain ⟨hl, hr⟩ := Finset.mem_inter.mp hi
  exact ⟨i, hl, hr, hhonest⟩

end AlephNode
