import AlephNode.SessionArithmetic

/-!
# The range of session arithmetic

Sessions partition the block numbers as long as the end of a session is computed without
overflow. With a long period this fails for the last sessions of the `u32` range, although
their first blocks have numbers.
-/
namespace AlephNode

/-- The sum of `u32` numbers, if it does not overflow. -/
def checkedAdd (a b : UInt32) : Option UInt32 :=
  if a.toNat + b.toNat < 2 ^ 32 then some (a + b) else none

/-- The product of `u32` numbers, if it does not overflow. -/
def checkedMul (a b : UInt32) : Option UInt32 :=
  if a.toNat * b.toNat < 2 ^ 32 then some (a * b) else none

/-- The difference of `u32` numbers, if it does not overflow. -/
def checkedSub (a b : UInt32) : Option UInt32 :=
  if b.toNat ≤ a.toNat then some (a - b) else none

/-- `last_block_of_session`, if none of its operations overflows. -/
def checkedLastBlockOfSession (sessionId : SessionId) (period : SessionPeriod) : Option UInt32 := do
  let next ← checkedAdd sessionId.val 1
  let product ← checkedMul next period.val
  checkedSub product 1

variable {n : ℕ} {p : SessionPeriod} {s : SessionId}

/-- Where no operation overflows, the wrapping operations compute the same number. -/
theorem checkedLastBlockOfSession_eq_some {last : UInt32} (hp : 0 < p.val.toNat) :
    checkedLastBlockOfSession s p = some last ↔
      (s.val.toNat + 1) * p.val.toNat < 2 ^ 32 ∧ last.toNat = lastBlockOfSession s p := by
  by_cases hsum : s.val.toNat + 1 < 2 ^ 32
  · have hadd : checkedAdd s.val 1 = some (s.val + 1) := if_pos hsum
    have hnext : (s.val + 1).toNat = s.val.toNat + 1 := by
      rw [UInt32.toNat_add, UInt32.toNat_one, Nat.mod_eq_of_lt hsum]
    by_cases hproduct : (s.val.toNat + 1) * p.val.toNat < 2 ^ 32
    · have hmul : checkedMul (s.val + 1) p.val = some ((s.val + 1) * p.val) := by
        rw [checkedMul, hnext, if_pos hproduct]
      have hpos : 1 ≤ ((s.val + 1) * p.val).toNat := by
        rw [UInt32.toNat_mul, hnext, Nat.mod_eq_of_lt hproduct]
        exact Nat.mul_pos (Nat.succ_pos _) hp
      have hsub : checkedSub ((s.val + 1) * p.val) 1 = some ((s.val + 1) * p.val - 1) :=
        if_pos hpos
      have hvalue : checkedLastBlockOfSession s p = some ((s.val + 1) * p.val - 1) := by
        simp only [checkedLastBlockOfSession, hadd, hmul, hsub, Option.bind_eq_bind,
          Option.bind_some]
      rw [hvalue, Option.some.injEq, lastBlockOfSession, UInt32.toNat_inj, eq_comm]
      exact (and_iff_right hproduct).symm
    · have hmul : checkedMul (s.val + 1) p.val = none := by
        rw [checkedMul, hnext, if_neg hproduct]
      have hnone : checkedLastBlockOfSession s p = none := by
        simp only [checkedLastBlockOfSession, hadd, hmul, Option.bind_eq_bind, Option.bind_some,
          Option.bind_none]
      rw [hnone]
      exact iff_of_false (by simp) (fun h => hproduct h.1)
  · have hadd : checkedAdd s.val 1 = none := if_neg hsum
    have hnone : checkedLastBlockOfSession s p = none := by
      simp only [checkedLastBlockOfSession, hadd, Option.bind_eq_bind, Option.bind_none]
    have hbig := Nat.le_mul_of_pos_right (s.val.toNat + 1) hp
    rw [hnone]
    refine iff_of_false (by simp) ?_
    rintro ⟨hfit, _⟩
    omega

/-- What the number `n` can rely on about its session `s`. -/
structure SessionBounds (n : ℕ) (p : SessionPeriod) (s : SessionId) : Prop where
  computed : ∃ last, checkedLastBlockOfSession s p = some last
  reached : n ≤ lastBlockOfSession s p
  after : ∀ previous : SessionId, previous.val.toNat + 1 = s.val.toNat →
    lastBlockOfSession previous p < n
  next : lastBlockOfSession s p + 1 < 2 ^ 32 →
    ∃ following, sessionIdFromBlockNum (lastBlockOfSession s p + 1) p = .ok following ∧
      following.val.toNat = s.val.toNat + 1

/-- The session of a number ends at the number or later, unless its end is too large. -/
theorem reached_iff (hs : sessionIdFromBlockNum n p = .ok s) (hn : n < 2 ^ 32) :
    n ≤ lastBlockOfSession s p ↔ (s.val.toNat + 1) * p.val.toNat ≤ 2 ^ 32 := by
  obtain ⟨hp, hdiv⟩ := sessionIdFromBlockNum_ok.mp hs
  rw [Nat.min_eq_left (by omega)] at hdiv
  have hlow : s.val.toNat * p.val.toNat ≤ n := hdiv ▸ Nat.div_mul_le_self n p.val.toNat
  have hhigh : n < (s.val.toNat + 1) * p.val.toNat :=
    (Nat.div_lt_iff_lt_mul hp).mp (by omega)
  have hperiod : p.val.toNat < 2 ^ 32 := p.val.toNat_lt
  have hmul : (s.val.toNat + 1) * p.val.toNat = s.val.toNat * p.val.toNat + p.val.toNat := by ring
  constructor
  · intro hreached
    rw [lastBlockOfSession_mod] at hreached
    generalize (s.val.toNat + 1) * p.val.toNat = k at *
    omega
  · intro hfit
    rw [lastBlockOfSession_eq hp hfit, finalNumber]
    omega

/-- The session of the next number ends above, if the numbers do not run out. -/
theorem lt_lastBlockOfSession {f : ℕ} (hs : sessionIdFromBlockNum (f + 1) p = .ok s)
    (hfit : f + p.val.toNat < 2 ^ 32) : f < lastBlockOfSession s p := by
  obtain ⟨hp, hdiv⟩ := sessionIdFromBlockNum_ok.mp hs
  rw [Nat.min_eq_left (by omega)] at hdiv
  have hlow : s.val.toNat * p.val.toNat ≤ f + 1 := hdiv ▸ Nat.div_mul_le_self _ _
  have hmul : (s.val.toNat + 1) * p.val.toNat = s.val.toNat * p.val.toNat + p.val.toNat := by ring
  exact (reached_iff hs (by omega)).mpr (by omega)

/-- The sessions partition the numbers as the arithmetic says, exactly for the numbers whose
session has an end below the bound of `u32`. -/
theorem session_bounds_iff (hp : 0 < p.val.toNat) (hn : n < 2 ^ 32)
    (hs : sessionIdFromBlockNum n p = .ok s) :
    SessionBounds n p s ↔ (n / p.val.toNat + 1) * p.val.toNat < 2 ^ 32 := by
  obtain ⟨_, hdiv⟩ := sessionIdFromBlockNum_ok.mp hs
  rw [Nat.min_eq_left (by omega)] at hdiv
  rw [← hdiv]
  constructor
  · intro hbounds
    obtain ⟨last, hlast⟩ := hbounds.computed
    exact ((checkedLastBlockOfSession_eq_some hp).mp hlast).1
  · intro hfit
    have hend : lastBlockOfSession s p + 1 = (s.val.toNat + 1) * p.val.toNat := by
      have hpos : 0 < (s.val.toNat + 1) * p.val.toNat := Nat.mul_pos (Nat.succ_pos _) hp
      rw [lastBlockOfSession_eq hp hfit.le, finalNumber]
      exact Nat.sub_add_cancel hpos
    constructor
    · refine ⟨UInt32.ofNat (lastBlockOfSession s p), ?_⟩
      rw [checkedLastBlockOfSession_eq_some hp]
      exact ⟨hfit, UInt32.toNat_ofNat_of_lt' (lastBlockOfSession_lt s p)⟩
    · exact (reached_iff hs hn).mpr hfit.le
    · intro previous hprevious
      have hlow : s.val.toNat * p.val.toNat ≤ n := hdiv ▸ Nat.div_mul_le_self n p.val.toNat
      have hpos : 0 < s.val.toNat * p.val.toNat := Nat.mul_pos (by omega) hp
      rw [lastBlockOfSession_eq hp (by rw [hprevious]; omega), finalNumber, hprevious]
      omega
    · intro hnext
      have hfollowing : s.val.toNat + 1 < 2 ^ 32 := by
        have hle := Nat.le_mul_of_pos_right (s.val.toNat + 1) hp
        omega
      refine ⟨⟨UInt32.ofNat (s.val.toNat + 1)⟩, ?_, UInt32.toNat_ofNat_of_lt' hfollowing⟩
      rw [sessionIdFromBlockNum_ok, Nat.min_eq_left (by omega), hend, Nat.mul_div_cancel _ hp]
      exact ⟨hp, UInt32.toNat_ofNat_of_lt' hfollowing⟩

theorem session_bounds_iff_nine_hundred : SessionBounds 4294966199 ⟨900⟩ ⟨4772184⟩ := by
  have hs : sessionIdFromBlockNum 4294966199 ⟨900⟩ = .ok ⟨4772184⟩ := by decide
  exact (session_bounds_iff (by decide) (by decide) hs).mpr (by decide)

/-- A number above the wrapped end of its session. -/
theorem session_bounds_overflow :
    sessionIdFromBlockNum (2 ^ 32 - 1) ⟨2147483649⟩ = .ok ⟨1⟩ ∧
      checkedLastBlockOfSession ⟨1⟩ ⟨2147483649⟩ = none ∧
      lastBlockOfSession ⟨1⟩ ⟨2147483649⟩ = 1 ∧
      ¬ SessionBounds (2 ^ 32 - 1) ⟨2147483649⟩ ⟨1⟩ := by
  refine ⟨by decide, by decide, by decide, ?_⟩
  intro hbounds
  have hreached : 2 ^ 32 - 1 ≤ lastBlockOfSession ⟨1⟩ ⟨2147483649⟩ := hbounds.reached
  exact absurd hreached (by decide)

end AlephNode
