import Mathlib.Tactic

/-!
# The sign of a reduced cost

The check of an exact assignment adds up costs and potentials as a sign and a magnitude of two
limbs, so that no term overflows.
-/

namespace EmuFlow.BankChannels

open List

/-- The class `ExactSignedSum`: a sign and the two limbs of a magnitude. -/
structure ExactSignedSum where
  negative : Bool
  high : BitVec 64
  low : BitVec 64

namespace ExactSignedSum

def start : ExactSignedSum := { negative := false, high := 0, low := 0 }

/-- `-(value + 1)` does not overflow for the least value either. -/
def magnitude (value : BitVec 64) : BitVec 64 :=
  if value.slt 0 then -(value + 1) + 1 else value

def add (s : ExactSignedSum) (value : BitVec 64) (negate : Bool) : ExactSignedSum :=
  let termNegative := value.slt 0 != negate
  let magnitude := magnitude value
  if magnitude = 0 then s
  else if s.high = 0 ∧ s.low = 0 then { s with negative := termNegative, low := magnitude }
  else if s.negative = termNegative then
    let low := s.low + magnitude
    { s with low := low, high := if low < s.low then s.high + 1 else s.high }
  else if s.high ≠ 0 ∨ magnitude ≤ s.low then
    let high := if s.low < magnitude then s.high - 1 else s.high
    let low := s.low - magnitude
    { negative := if high = 0 ∧ low = 0 then false else s.negative, high := high, low := low }
  else { s with negative := termNegative, low := magnitude - s.low }

/-- The terms of a sum, each with its `negate`. -/
def sum (terms : List (BitVec 64 × Bool)) : ExactSignedSum :=
  terms.foldl (fun s term => s.add term.1 term.2) start

def term (t : BitVec 64 × Bool) : Int := if t.2 then -t.1.toInt else t.1.toInt

def exact (terms : List (BitVec 64 × Bool)) : Int := (terms.map term).sum

def limbs (high low : BitVec 64) : Nat := high.toNat * 2 ^ 64 + low.toNat

/-- The number that a sign and two limbs stand for; zero is not negative. -/
structure Holds (s : ExactSignedSum) (x : Int) : Prop where
  value : x = if s.negative then -(limbs s.high s.low : Int) else limbs s.high s.low
  zero : limbs s.high s.low = 0 → s.negative = false

theorem toNat_magnitude (value : BitVec 64) : (magnitude value).toNat = value.toInt.natAbs := by
  unfold magnitude
  have h := value.isLt
  by_cases hn : value.slt 0 = true
  · rw [if_pos hn]
    rw [BitVec.slt_iff_toInt_lt] at hn
    rw [BitVec.toInt_eq_toNat_cond] at hn ⊢
    simp at hn
    split at hn <;> rename_i h2
    · omega
    · rw [if_neg h2]
      bv_omega
  · rw [if_neg hn]
    rw [BitVec.slt_iff_toInt_lt] at hn
    rw [BitVec.toInt_eq_toNat_cond] at hn ⊢
    simp at hn
    split at hn <;> rename_i h2
    · rw [if_pos h2]; omega
    · omega

/-- A term is its magnitude under its sign. -/
theorem term_eq (t : BitVec 64 × Bool) :
    term t = if t.1.slt 0 != t.2 then -((magnitude t.1).toNat : Int) else
      (magnitude t.1).toNat := by
  obtain ⟨value, negate⟩ := t
  rw [toNat_magnitude, term, Int.natCast_natAbs]
  cases hn : value.slt 0 with
  | true =>
    have hlt : value.toInt < 0 := BitVec.slt_iff_toInt_lt.mp hn
    cases negate <;> simp [abs_of_neg hlt]
  | false =>
    have hle : 0 ≤ value.toInt := by
      by_contra hlt
      have hs : value.slt 0 = true := BitVec.slt_iff_toInt_lt.mpr (not_le.mp hlt)
      rw [hn] at hs
      cases hs
    cases negate <;> simp [abs_of_nonneg hle]

theorem limbs_eq_zero {high low : BitVec 64} : limbs high low = 0 ↔ high = 0 ∧ low = 0 := by
  rw [limbs]
  constructor
  · intro h
    exact ⟨BitVec.eq_of_toNat_eq (by simp; omega), BitVec.eq_of_toNat_eq (by simp; omega)⟩
  · rintro ⟨rfl, rfl⟩
    rfl

theorem limbs_carry {high low m : BitVec 64} (h : limbs high low + m.toNat < 2 ^ 128) :
    limbs (if low + m < low then high + 1 else high) (low + m) = limbs high low + m.toNat := by
  unfold limbs at h ⊢
  have hl := low.isLt
  have hm := m.isLt
  split <;> bv_omega

theorem limbs_borrow {high low m : BitVec 64} (h : high ≠ 0 ∨ m ≤ low) :
    limbs (if low < m then high - 1 else high) (low - m) + m.toNat = limbs high low := by
  unfold limbs
  have hh := high.isLt
  split <;> bv_omega

/-- One more term, while the magnitude fits into two limbs. -/
theorem Holds.add {s : ExactSignedSum} {x : Int} (h : Holds s x) {t : BitVec 64 × Bool}
    (hft : (x + term t).natAbs < 2 ^ 128) : Holds (s.add t.1 t.2) (x + term t) := by
  obtain ⟨hv, hz⟩ := h
  have ht := term_eq t
  unfold ExactSignedSum.add
  generalize ExactSignedSum.magnitude t.1 = m at ht ⊢
  generalize (t.1.slt 0 != t.2) = negative at ht ⊢
  generalize term t = y at ht hft ⊢
  by_cases hm : m = 0
  · rw [if_pos hm]
    have hy : y = 0 := by
      rw [ht, hm]
      cases negative <;> rfl
    rw [hy, add_zero]
    exact ⟨hv, hz⟩
  have hp : m.toNat ≠ 0 := fun h0 => hm (BitVec.eq_of_toNat_eq h0)
  rw [if_neg hm]
  by_cases hf : s.high = 0 ∧ s.low = 0
  · have hx : x = 0 := by
      rw [hv, limbs_eq_zero.mpr hf]
      split <;> rfl
    have hl : limbs s.high m = m.toNat := by rw [limbs, hf.1]; simp
    rw [if_pos hf]
    refine ⟨?_, fun h0 => absurd (hl.symm.trans h0) hp⟩
    dsimp only
    rw [hx, ht, hl, zero_add]
  rw [if_neg hf]
  by_cases hsm : s.negative = negative
  · -- the same sign: the magnitudes add up
    have hl : limbs s.high s.low + m.toNat < 2 ^ 128 := by
      rw [hv, ht, hsm] at hft
      cases negative <;> (simp at hft; omega)
    rw [if_pos hsm]
    refine ⟨?_, fun h0 => ?_⟩
    · dsimp only
      rw [limbs_carry hl, hv, ht, hsm]
      cases negative with
      | false => simp
      | true =>
        simp
        omega
    · rw [limbs_carry hl] at h0
      omega
  rw [if_neg hsm]
  have ho : negative = !s.negative := by
    cases negative <;> cases hs : s.negative <;> simp_all
  by_cases hlr : s.high ≠ 0 ∨ m ≤ s.low
  · -- the old magnitude is the larger one
    have hl := limbs_borrow hlr
    rw [if_pos hlr]
    generalize (if s.low < m then s.high - 1 else s.high) = high at hl ⊢
    refine ⟨?_, fun h0 => ?_⟩
    · dsimp only
      rw [hv, ht, ho, ← hl]
      by_cases h0 : high = 0 ∧ s.low - m = 0
      · simp only [if_pos h0, limbs_eq_zero.mpr h0]
        cases s.negative <;> simp
      · simp only [if_neg h0]
        cases s.negative <;> simp
    · exact if_pos (limbs_eq_zero.mp h0)
  · rw [not_or, not_not] at hlr
    have hl : limbs s.high (m - s.low) + limbs s.high s.low = m.toNat := by
      rw [limbs, limbs, hlr.1]
      have hlt := hlr.2
      bv_omega
    have hsl : limbs s.high s.low < m.toNat := by
      rw [limbs, hlr.1]
      have hlt := hlr.2
      bv_omega
    rw [if_neg (by rw [not_or, not_not]; exact hlr)]
    refine ⟨?_, fun h0 => ?_⟩
    · dsimp only
      rw [hv, ht, ho]
      cases s.negative <;> (simp; omega)
    · dsimp only at h0
      omega

theorem Holds.sign {s : ExactSignedSum} {x : Int} (h : Holds s x) :
    (s.negative = true ↔ x < 0) ∧ limbs s.high s.low = x.natAbs := by
  obtain ⟨hv, hz⟩ := h
  rw [hv]
  cases hs : s.negative with
  | true =>
    have hne : limbs s.high s.low ≠ 0 := by
      intro h0
      rw [hz h0] at hs
      cases hs
    simp
    omega
  | false => simp

theorem sum_concat (terms : List (BitVec 64 × Bool)) (t : BitVec 64 × Bool) :
    sum (terms ++ [t]) = (sum terms).add t.1 t.2 := by
  rw [sum, foldl_append]
  rfl

theorem exact_concat (terms : List (BitVec 64 × Bool)) (t : BitVec 64 × Bool) :
    exact (terms ++ [t]) = exact terms + term t := by
  rw [exact, map_append, sum_append, map_singleton, sum_singleton]
  rfl

theorem natAbs_term_le (t : BitVec 64 × Bool) : (term t).natAbs ≤ 2 ^ 63 := by
  have hl := t.1.le_toInt
  have hh := t.1.toInt_lt
  rw [term]
  split <;> omega

theorem natAbs_exact_le (terms : List (BitVec 64 × Bool)) :
    (exact terms).natAbs ≤ terms.length * 2 ^ 63 := by
  induction terms using List.reverseRecOn with
  | nil => simp [exact]
  | append_singleton terms t ih =>
    have ht := natAbs_term_le t
    rw [exact_concat, length_append, length_singleton]
    omega

/-- Fewer than `2 ^ 65` terms never leave the two limbs. -/
theorem sum_holds (terms : List (BitVec 64 × Bool)) (h : terms.length < 2 ^ 65) :
    Holds (sum terms) (exact terms) := by
  induction terms using List.reverseRecOn with
  | nil => exact ⟨rfl, fun _ => rfl⟩
  | append_singleton terms t ih =>
    rw [length_append, length_singleton] at h
    have hb := natAbs_exact_le (terms ++ [t])
    rw [length_append, length_singleton, exact_concat] at hb
    rw [sum_concat, exact_concat]
    exact (ih (by omega)).add (by omega)

/--
**The sign of an exact sum.**

For fewer than `2 ^ 65` terms in any order `negative` says whether their sum is negative, and the
two limbs are the magnitude of the sum.
-/
theorem negative_iff (terms : List (BitVec 64 × Bool)) (h : terms.length < 2 ^ 65) :
    ((sum terms).negative = true ↔ exact terms < 0) ∧
      limbs (sum terms).high (sum terms).low = (exact terms).natAbs :=
  (sum_holds terms h).sign

/-- The reduced cost of three terms. -/
theorem negative_iff_three :
    (sum [(5, false), (7, true), (BitVec.intMin 64, true)]).negative = false := by
  have h := negative_iff [(5, false), (7, true), (BitVec.intMin 64, true)] (by decide)
  rw [← Bool.not_eq_true, h.1]
  decide

/-- `2 ^ 65` least terms wrap the limbs to zero, and the next term is taken for the whole sum. -/
def wrapTerms : List (BitVec 64 × Bool) :=
  List.replicate (2 ^ 65) (BitVec.intMin 64, false) ++ [(1, false)]

theorem exact_replicate (n : Nat) (t : BitVec 64 × Bool) :
    exact (List.replicate n t) = n * term t := by
  rw [exact, map_replicate, sum_replicate, nsmul_eq_mul]

theorem wrapTerms_negative : exact wrapTerms < 0 ∧ (sum wrapTerms).negative = false := by
  have hleast : term (BitVec.intMin 64, false) = -2 ^ 63 := by decide
  obtain ⟨n, hn⟩ : ∃ n, 2 ^ 65 = n + 1 := ⟨2 ^ 65 - 1, by norm_num⟩
  rw [wrapTerms, exact_concat, exact_replicate, hleast, hn]
  refine ⟨?_, ?_⟩
  · have hone : term (1, false) = 1 := by decide
    rw [hone, ← hn]
    norm_num
  -- before the last of the least terms the limbs are full
  have hlength : (List.replicate n (BitVec.intMin 64, false)).length < 2 ^ 65 := by
    rw [length_replicate, hn]
    exact Nat.lt_succ_self n
  obtain ⟨hsign, hlimbs⟩ := (sum_holds _ hlength).sign
  rw [exact_replicate, hleast] at hsign hlimbs
  rw [replicate_succ', sum_concat, sum_concat]
  generalize sum (List.replicate n (BitVec.intMin 64, false)) = s at hsign hlimbs ⊢
  obtain ⟨negative, high, low⟩ := s
  have hnegative : negative = true := hsign.mpr (by omega)
  have hfull : high.toNat * 2 ^ 64 + low.toNat = 2 ^ 128 - 2 ^ 63 := by
    have hcast : limbs high low = n * 2 ^ 63 := by
      rw [hlimbs]
      omega
    rw [limbs] at hcast
    omega
  have hlow := low.isLt
  have hhigh : high = 0xffffffffffffffff := BitVec.eq_of_toNat_eq (by simp; omega)
  have hlow' : low = 0x8000000000000000 := BitVec.eq_of_toNat_eq (by simp; omega)
  rw [hnegative, hhigh, hlow']
  decide

end ExactSignedSum

end EmuFlow.BankChannels
