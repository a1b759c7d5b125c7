import AlephNode.PanicsAndChannels
import Mathlib.Algebra.Order.Group.Nat
import Mathlib.Tactic.Ring

/-!
# Sessions and their last blocks

Session numbers and periods are `u32`; block numbers are converted to `u32` with
saturation. Sums and products wrap, as they do in a release build.
-/
namespace AlephNode

structure SessionId where
  val : UInt32
  deriving DecidableEq, Repr

structure SessionPeriod where
  val : UInt32
  deriving DecidableEq, Repr

theorem session_ext {s t : SessionId} (h : s.val.toNat = t.val.toNat) : s = t := by
  obtain ⟨v⟩ := s
  obtain ⟨w⟩ := t
  rw [SessionId.mk.injEq]
  exact UInt32.toNat_inj.mp h

/-- `saturated_into::<u32>()` -/
def saturatedInto (n : ℕ) : UInt32 := UInt32.ofNat (min n (UInt32.size - 1))

/-- The `u32` product wraps when the session ends beyond the last `u32` number. -/
def lastBlockOfSession (sessionId : SessionId) (period : SessionPeriod) : ℕ :=
  ((sessionId.val + 1) * period.val - 1).toNat

def sessionIdFromBlockNum (num : ℕ) (period : SessionPeriod) : Result SessionId :=
  if period.val = 0 then .error .divideByZero
  else .ok ⟨saturatedInto num / period.val⟩

/-- The number of the last block of a session, without the bounds of `u32`. -/
def finalNumber (sessionId : SessionId) (period : SessionPeriod) : ℕ :=
  (sessionId.val.toNat + 1) * period.val.toNat - 1

theorem saturatedInto_toNat (n : ℕ) : (saturatedInto n).toNat = min n (2 ^ 32 - 1) := by
  have h : min n (UInt32.size - 1) < UInt32.size :=
    (Nat.min_le_right _ _).trans_lt (by decide)
  rw [saturatedInto, UInt32.toNat_ofNat_of_lt' h]
  rfl

theorem lastBlockOfSession_mod (s : SessionId) (p : SessionPeriod) :
    lastBlockOfSession s p = ((s.val.toNat + 1) * p.val.toNat + (2 ^ 32 - 1)) % 2 ^ 32 := by
  simp only [lastBlockOfSession, UInt32.toNat_sub, UInt32.toNat_mul, UInt32.toNat_add,
    UInt32.toNat_one]
  rw [Nat.mod_mul_mod]
  omega

theorem lastBlockOfSession_lt (s : SessionId) (p : SessionPeriod) :
    lastBlockOfSession s p < 2 ^ 32 := by
  rw [lastBlockOfSession_mod]
  exact Nat.mod_lt _ (by norm_num)

/-- Without overflow the code's last block is the last block of the session. -/
theorem lastBlockOfSession_eq {s : SessionId} {p : SessionPeriod} (hp : 0 < p.val.toNat)
    (h : (s.val.toNat + 1) * p.val.toNat ≤ 2 ^ 32) : lastBlockOfSession s p = finalNumber s p := by
  have hpos : 0 < (s.val.toNat + 1) * p.val.toNat := Nat.mul_pos (Nat.succ_pos _) hp
  rw [lastBlockOfSession_mod, finalNumber]
  generalize (s.val.toNat + 1) * p.val.toNat = k at h hpos ⊢
  omega

theorem sessionIdFromBlockNum_ok {n : ℕ} {p : SessionPeriod} {s : SessionId} :
    sessionIdFromBlockNum n p = .ok s ↔
      0 < p.val.toNat ∧ s.val.toNat = min n (2 ^ 32 - 1) / p.val.toNat := by
  have hzero : p.val = 0 ↔ p.val.toNat = 0 := by
    rw [← UInt32.toNat_inj, UInt32.toNat_zero]
  obtain ⟨v⟩ := s
  unfold sessionIdFromBlockNum
  split
  · next h => simp [hzero.mp h]
  · next h =>
    have hpos : 0 < p.val.toNat := Nat.pos_of_ne_zero (fun he => h (hzero.mpr he))
    rw [Except.ok.injEq, SessionId.mk.injEq, ← UInt32.toNat_inj, UInt32.toNat_div,
      saturatedInto_toNat]
    exact ⟨fun he => ⟨hpos, he.symm⟩, fun he => he.2.symm⟩

theorem sessionIdFromBlockNum_returns {p : SessionPeriod} (hp : 0 < p.val.toNat) (n : ℕ) :
    ∃ s, sessionIdFromBlockNum n p = .ok s := by
  have hne : p.val ≠ 0 := by
    rintro h
    simp [h] at hp
  exact ⟨_, if_neg hne⟩

/-- The heights that `JustificationHandler` accepts after `f`, and that an aggregator
starting at `f` signs, all lie in one session: a wrapped last block is below `f`. -/
theorem number_in_session {f n : ℕ} {p : SessionPeriod} {s : SessionId} (hp : 0 < p.val.toNat)
    (hs : s.val.toNat * p.val.toNat ≤ f + 1) (hf : f < n) (hn : n ≤ lastBlockOfSession s p) :
    n < 2 ^ 32 ∧ n / p.val.toNat = s.val.toNat ∧ lastBlockOfSession s p = finalNumber s p := by
  have hlt := lastBlockOfSession_lt s p
  have hperiod : p.val.toNat < 2 ^ 32 := p.val.toNat_lt
  have hmul : (s.val.toNat + 1) * p.val.toNat = s.val.toNat * p.val.toNat + p.val.toNat := by ring
  have hfit : (s.val.toNat + 1) * p.val.toNat ≤ 2 ^ 32 := by
    by_contra hbig
    have hmod := lastBlockOfSession_mod s p
    rw [hmul] at hbig hmod
    generalize s.val.toNat * p.val.toNat = k at *
    omega
  have heq := lastBlockOfSession_eq hp hfit
  refine ⟨by omega, ?_, heq⟩
  rw [heq, finalNumber, hmul] at hn
  apply Nat.div_eq_of_lt_le
  · omega
  · rw [hmul]
    omega

/-- The window of heights in which the handler finalizes while `s` is the session of the
next height. -/
theorem window_in_session {f n : ℕ} {p : SessionPeriod} {s : SessionId}
    (hs : sessionIdFromBlockNum (f + 1) p = .ok s) (hf : f < n) (hn : n ≤ lastBlockOfSession s p) :
    sessionIdFromBlockNum n p = .ok s ∧ lastBlockOfSession s p = finalNumber s p := by
  obtain ⟨hp, hdiv⟩ := sessionIdFromBlockNum_ok.mp hs
  have hmul : s.val.toNat * p.val.toNat ≤ f + 1 := by
    rw [hdiv]
    exact (Nat.div_mul_le_self _ _).trans (Nat.min_le_left _ _)
  obtain ⟨hlt, hquot, heq⟩ := number_in_session hp hmul hf hn
  refine ⟨sessionIdFromBlockNum_ok.mpr ⟨hp, ?_⟩, heq⟩
  rw [Nat.min_eq_left (by omega), hquot]

/-- A number between two numbers of a session is in the session. -/
theorem session_between {a n b : ℕ} {p : SessionPeriod} {s t : SessionId}
    (ha : sessionIdFromBlockNum a p = .ok s) (hb : sessionIdFromBlockNum b p = .ok s)
    (hn : sessionIdFromBlockNum n p = .ok t) (han : a ≤ n) (hnb : n ≤ b) : t = s := by
  obtain ⟨_, ha⟩ := sessionIdFromBlockNum_ok.mp ha
  obtain ⟨_, hb⟩ := sessionIdFromBlockNum_ok.mp hb
  obtain ⟨_, hn⟩ := sessionIdFromBlockNum_ok.mp hn
  have hlow : min a (2 ^ 32 - 1) / p.val.toNat ≤ min n (2 ^ 32 - 1) / p.val.toNat :=
    Nat.div_le_div_right (by omega)
  have hhigh : min n (2 ^ 32 - 1) / p.val.toNat ≤ min b (2 ^ 32 - 1) / p.val.toNat :=
    Nat.div_le_div_right (by omega)
  exact session_ext (by omega)

/-- If the session changes from one number to the next, it ends at the first of them. -/
theorem lastBlockOfSession_of_boundary {f : ℕ} {p : SessionPeriod} {a b s : SessionId}
    (ha : sessionIdFromBlockNum f p = .ok a) (hb : sessionIdFromBlockNum (f + 1) p = .ok b)
    (has : a.val.toNat ≤ s.val.toNat) (hsb : s.val.toNat < b.val.toNat) :
    lastBlockOfSession s p = f := by
  obtain ⟨hp, ha⟩ := sessionIdFromBlockNum_ok.mp ha
  obtain ⟨_, hb⟩ := sessionIdFromBlockNum_ok.mp hb
  have hlow : min f (2 ^ 32 - 1) < (s.val.toNat + 1) * p.val.toNat :=
    (Nat.div_lt_iff_lt_mul hp).mp (by omega)
  have hhigh : (s.val.toNat + 1) * p.val.toNat ≤ min (f + 1) (2 ^ 32 - 1) :=
    (Nat.le_div_iff_mul_le hp).mp (by omega)
  rw [lastBlockOfSession_eq hp (by omega), finalNumber]
  omega

theorem session_pred_toNat {s : SessionId} (h : s ≠ ⟨0⟩) : (s.val - 1).toNat + 1 = s.val.toNat := by
  obtain ⟨v⟩ := s
  have hpos : 0 < v.toNat := by
    apply Nat.pos_of_ne_zero
    intro he
    exact h (by rw [UInt32.toNat_inj.mp (he.trans UInt32.toNat_zero.symm)])
  have hone : (1 : UInt32) ≤ v := by
    rw [UInt32.le_iff_toNat_le, UInt32.toNat_one]
    exact hpos
  rw [UInt32.toNat_sub_of_le _ _ hone, UInt32.toNat_one, Nat.sub_add_cancel hpos]

theorem lastBlockOfSession_pred {s : SessionId} {p : SessionPeriod} (hs : s ≠ ⟨0⟩)
    (hp : 0 < p.val.toNat) (hfit : s.val.toNat * p.val.toNat ≤ 2 ^ 32) :
    lastBlockOfSession ⟨s.val - 1⟩ p + 1 = s.val.toNat * p.val.toNat := by
  have hpred := session_pred_toNat hs
  have hpos : 0 < s.val.toNat * p.val.toNat := Nat.mul_pos (by omega) hp
  rw [lastBlockOfSession_eq hp (by rw [hpred]; exact hfit), finalNumber, hpred]
  exact Nat.sub_add_cancel hpos

/-- A session starts right after the last block of the session before, if that is computed
without overflow. -/
theorem session_start_le {s : SessionId} {p : SessionPeriod} {f : ℕ}
    (hfit : s.val.toNat * p.val.toNat < 2 ^ 32)
    (h : s ≠ ⟨0⟩ → lastBlockOfSession ⟨s.val - 1⟩ p ≤ f) : s.val.toNat * p.val.toNat ≤ f + 1 := by
  by_cases hzero : s = ⟨0⟩
  · simp [hzero]
  · by_cases hp : p.val.toNat = 0
    · simp [hp]
    · have hpred := lastBlockOfSession_pred hzero (Nat.pos_of_ne_zero hp) hfit.le
      have hle := h hzero
      omega

end AlephNode
