import Mathlib.Tactic

/-!
# Discrete ratios

The ratios one and the positive multiples of a quantum. A demand is rounded up to the least such
ratio that is not below it, and a limit is rounded down to the largest such ratio that is not above
it; the two roundings are adjoint.
-/

namespace DiscreteRatio

def ceilDiv (n d : Nat) : Nat := (n + d - 1) / d

theorem ceilDiv_le_iff {n d k : Nat} (hd : 0 < d) : ceilDiv n d ≤ k ↔ n ≤ k * d := by
  rw [ceilDiv, Nat.div_le_iff_le_mul_add_pred hd, Nat.mul_comm d k]
  omega

theorem le_ceilDiv_mul {n d : Nat} (hd : 0 < d) : n ≤ ceilDiv n d * d :=
  (ceilDiv_le_iff hd).mp le_rfl

theorem ceilDiv_zero {d : Nat} (hd : 0 < d) : ceilDiv 0 d = 0 :=
  Nat.le_zero.mp ((ceilDiv_le_iff hd).mpr (Nat.zero_le _))

theorem ceilDiv_pos {n d : Nat} (hd : 0 < d) (hn : 0 < n) : 0 < ceilDiv n d := by
  by_contra h
  have := (ceilDiv_le_iff hd).mp (not_lt.mp h)
  omega

theorem ceilDiv_mono {n m d : Nat} (hd : 0 < d) (h : n ≤ m) : ceilDiv n d ≤ ceilDiv m d :=
  (ceilDiv_le_iff hd).mpr (h.trans (le_ceilDiv_mul hd))

/-- The least ratio that is at least `raw`. -/
def roundUp (quantum raw : Nat) : Nat := if raw = 1 then 1 else ceilDiv raw quantum * quantum

/-- The largest ratio that is at most `limit`. -/
def largest (quantum limit : Nat) : Nat :=
  if quantum ≤ limit then limit / quantum * quantum else 1

theorem largest_pos {quantum limit : Nat} (hq : 0 < quantum) : 0 < largest quantum limit := by
  unfold largest
  split
  · next h => exact Nat.mul_pos (Nat.div_pos h hq) hq
  · exact Nat.one_pos

theorem largest_of_dvd {quantum limit : Nat} (hl : 0 < limit) (h : quantum ∣ limit) :
    largest quantum limit = limit := by
  rw [largest, if_pos (Nat.le_of_dvd hl h), Nat.div_mul_cancel h]

/-- Rounding up stays within a limit up to its largest ratio. -/
theorem roundUp_le_iff {quantum raw limit : Nat} (hq : 0 < quantum) (hr : 0 < raw)
    (hl : 0 < limit) : roundUp quantum raw ≤ limit ↔ raw ≤ largest quantum limit := by
  unfold roundUp
  by_cases h1 : raw = 1
  · rw [if_pos h1, h1]
    exact ⟨fun _ => largest_pos hq, fun _ => hl⟩
  · rw [if_neg h1]
    unfold largest
    by_cases hle : quantum ≤ limit
    · rw [if_pos hle, ← Nat.le_div_iff_mul_le hq, ceilDiv_le_iff hq]
    · rw [if_neg hle]
      have hp : 0 < ceilDiv raw quantum := ceilDiv_pos hq hr
      have : quantum ≤ ceilDiv raw quantum * quantum := Nat.le_mul_of_pos_left quantum hp
      omega

theorem le_largest {quantum ratio limit : Nat} (hq : 0 < quantum) (hr : 0 < ratio)
    (hl : ratio = 1 ∨ quantum ∣ ratio) (hle : ratio ≤ limit) :
    ratio ≤ largest quantum limit := by
  rcases hl with rfl | ⟨k, rfl⟩
  · exact largest_pos hq
  · have hk : 0 < k := Nat.pos_of_mul_pos_left hr
    have hql : quantum ≤ limit := (Nat.le_mul_of_pos_right quantum hk).trans hle
    rw [largest, if_pos hql, Nat.mul_comm quantum k]
    refine Nat.mul_le_mul_right quantum ?_
    rw [Nat.le_div_iff_mul_le hq, Nat.mul_comm]
    exact hle

end DiscreteRatio
