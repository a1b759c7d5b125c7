import AlephNode.AncestorChains
import Mathlib.Algebra.Order.Group.Nat
import Mathlib.Tactic.Ring

/-!
# Chains across sessions

Heights are divided into sessions of equal length, and some elements of a forest are
marked. Marked elements of one session are comparable, and below every marked element but
the root there is a marked one that reaches up to its session. Then all marked elements
are comparable: what is marked in a session has below it a marked element that ends the
session before.
-/
namespace AlephNode

variable {α : Type*}

structure SessionedChains (parent : α → α → Prop) (height : α → ℕ) (period : ℕ)
    (marked : α → Prop) (root : α) : Prop where
  height_lt : ∀ p c, parent p c → height p < height c
  period_pos : 0 < period
  root_height : height root = 0
  based : ∀ b, marked b → b ≠ root → ∃ base, marked base ∧ AncestorOrEqual parent base b ∧
    height base < height b ∧ height b / period * period ≤ height base + 1
  together : ∀ b c, marked b → marked c → b ≠ root → c ≠ root →
    height b / period = height c / period → OnOneChain parent b c

namespace SessionedChains
variable {parent : α → α → Prop} {height : α → ℕ} {period : ℕ} {marked : α → Prop} {root : α}
  (h : SessionedChains parent height period marked root)
include h

theorem root_ancestor {b : α} (hb : marked b) : AncestorOrEqual parent root b := by
  induction hheight : height b using Nat.strong_induction_on generalizing b with
  | _ n ih =>
    by_cases hroot : b = root
    · rw [hroot]
    · obtain ⟨base, hbase, hancestor, hlt, _⟩ := h.based b hb hroot
      exact (ih (height base) (hheight ▸ hlt) hbase rfl).trans hancestor

theorem onOneChain_of_session_eq {b c : α} (hb : marked b) (hc : marked c)
    (hsession : height b / period = height c / period) : OnOneChain parent b c := by
  by_cases hbroot : b = root
  · subst hbroot
    exact .inl (h.root_ancestor hc)
  · by_cases hcroot : c = root
    · subst hcroot
      exact .inr (h.root_ancestor hb)
    · exact h.together b c hb hc hbroot hcroot hsession

/-- Below a marked element a marked one ends the session before. -/
theorem exists_marked_boundary {b : α} (hb : marked b) (hlater : 0 < height b / period) :
    ∃ c, marked c ∧ AncestorOrEqual parent c b ∧
      height c + 1 = height b / period * period := by
  induction hheight : height b using Nat.strong_induction_on generalizing b with
  | _ n ih =>
    subst hheight
    have hpos := h.period_pos
    have hfull : period ≤ height b / period * period := Nat.le_mul_of_pos_left period hlater
    have hnot_root : b ≠ root := by
      rintro rfl
      simp [h.root_height] at hlater
    obtain ⟨base, hbase, hancestor, hlt, hreaches⟩ := h.based b hb hnot_root
    by_cases hboundary : height base + 1 = height b / period * period
    · exact ⟨base, hbase, hancestor, hboundary⟩
    · -- the base lies in the session itself, and the boundary below the base
      have hsession : height base / period = height b / period := by
        apply Nat.div_eq_of_lt_le
        · omega
        · exact hlt.trans (Nat.lt_mul_of_div_lt (Nat.lt_succ_self _) hpos)
      rw [← hsession] at hlater
      obtain ⟨c, hc, hbelow, hend⟩ := ih (height base) hlt hbase hlater rfl
      exact ⟨c, hc, hbelow.trans hancestor, hsession ▸ hend⟩

/-- Below a marked element marked ones end all earlier sessions. -/
theorem exists_marked_end {c : α} (hc : marked c) {s : ℕ} (hs : s < height c / period) :
    ∃ d, marked d ∧ AncestorOrEqual parent d c ∧ height d + 1 = (s + 1) * period := by
  induction hheight : height c using Nat.strong_induction_on generalizing c with
  | _ n ih =>
    subst hheight
    have hpos := h.period_pos
    obtain ⟨d, hd, hdc, hend⟩ := h.exists_marked_boundary hc (Nat.zero_lt_of_lt hs)
    obtain ⟨k, hk⟩ := Nat.exists_eq_succ_of_ne_zero (Nat.ne_of_gt (Nat.zero_lt_of_lt hs))
    rw [hk, Nat.succ_eq_add_one] at hend hs
    rcases Nat.eq_or_lt_of_le (Nat.le_of_lt_succ hs) with rfl | hlt
    · exact ⟨d, hd, hdc, hend⟩
    · have hmul : (k + 1) * period = k * period + period := by ring
      have hsession : height d / period = k := by
        apply Nat.div_eq_of_lt_le
        · omega
        · omega
      have hle : (k + 1) * period ≤ height c := by
        rw [← Nat.succ_eq_add_one, ← hk]
        exact Nat.div_mul_le_self _ _
      obtain ⟨e, he, hed, hlast⟩ := ih (height d) (by omega) hd (hsession.symm ▸ hlt) rfl
      exact ⟨e, he, hed.trans hdc, hlast⟩

theorem ancestor_of_session_lt {b c : α} (hb : marked b) (hc : marked c)
    (hsession : height b / period < height c / period) : AncestorOrEqual parent b c := by
  induction hheight : height c using Nat.strong_induction_on generalizing c with
  | _ n ih =>
    subst hheight
    have hpos := h.period_pos
    have hnot_zero := Nat.zero_lt_of_lt hsession
    obtain ⟨d, hd, hdc, hend⟩ := h.exists_marked_boundary hc hnot_zero
    obtain ⟨s, hs⟩ := Nat.exists_eq_succ_of_ne_zero (Nat.ne_of_gt hnot_zero)
    have hmul : (s + 1) * period = s * period + period := by ring
    have hbound : height b < (height b / period + 1) * period :=
      Nat.lt_mul_of_div_lt (Nat.lt_succ_self _) hpos
    rw [hs, Nat.succ_eq_add_one] at hend
    have hd_session : height d / period = s := by
      apply Nat.div_eq_of_lt_le
      · omega
      · omega
    have hlt : height d < height c := by
      have hle : (s + 1) * period ≤ height c := by
        rw [← Nat.succ_eq_add_one, ← hs]
        exact Nat.div_mul_le_self _ _
      omega
    obtain heq | hbefore := Nat.eq_or_lt_of_le (Nat.le_of_lt_succ (hs ▸ hsession))
    · have hchain := h.onOneChain_of_session_eq hb hd (heq.trans hd_session.symm)
      rw [heq] at hbound
      exact (hchain.ancestor_of_rank_le h.height_lt (by omega)).trans hdc
    · exact (ih (height d) hlt hd (hd_session.symm ▸ hbefore) rfl).trans hdc

theorem onOneChain {b c : α} (hb : marked b) (hc : marked c) : OnOneChain parent b c := by
  rcases Nat.lt_trichotomy (height b / period) (height c / period) with hlt | heq | hgt
  · exact .inl (h.ancestor_of_session_lt hb hc hlt)
  · exact h.onOneChain_of_session_eq hb hc heq
  · exact .inr (h.ancestor_of_session_lt hc hb hgt)

end SessionedChains
end AlephNode
