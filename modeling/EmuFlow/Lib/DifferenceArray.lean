import Mathlib.Algebra.BigOperators.Group.List.Basic
import Mathlib.Tactic

/-!
# Difference arrays

A function on slots kept by its differences: an interval on which the function takes one value costs
two updates, and the value at a slot is the sum of the differences up to it.
-/

namespace DifferenceArray

open List

/-! ## rounded-up quotients -/

/-- `math.ceil(a / b)`. -/
def ceilDiv (a b : ℤ) : ℤ := -(-a / b)

theorem ceilDiv_le_iff {a b c : ℤ} (hb : 0 < b) : ceilDiv a b ≤ c ↔ a ≤ c * b := by
  rw [ceilDiv, neg_le, Int.le_ediv_iff_mul_le hb, neg_mul, neg_le_neg_iff]

theorem lt_ceilDiv_iff {a b c : ℤ} (hb : 0 < b) : c < ceilDiv a b ↔ c * b < a := by
  rw [← not_le, ceilDiv_le_iff hb, not_le]

theorem le_ceilDiv_mul {a b : ℤ} (hb : 0 < b) : a ≤ ceilDiv a b * b := (ceilDiv_le_iff hb).mp le_rfl

theorem ceilDiv_nonneg {a b : ℤ} (ha : 0 ≤ a) (hb : 0 < b) : 0 ≤ ceilDiv a b := by
  by_contra h
  have hle : ceilDiv a b ≤ -1 := by omega
  rw [ceilDiv_le_iff hb] at hle
  omega

theorem ceilDiv_antitone {a b c : ℤ} (ha : 0 ≤ a) (hb : 0 < b) (hbc : b ≤ c) :
    ceilDiv a c ≤ ceilDiv a b := by
  rw [ceilDiv_le_iff (hb.trans_le hbc)]
  calc a ≤ ceilDiv a b * b := le_ceilDiv_mul hb
    _ ≤ ceilDiv a b * c := mul_le_mul_of_nonneg_left hbc (ceilDiv_nonneg ha hb)

/-- The last denominator with the quotient of `b` is at least `b`. -/
theorem le_lastDenominator {a b : ℤ} (hb : 0 < b) (hq : 1 < ceilDiv a b) :
    b ≤ (a - 1) / (ceilDiv a b - 1) := by
  rw [Int.le_ediv_iff_mul_le (by omega)]
  have : (ceilDiv a b - 1) * b < a := (lt_ceilDiv_iff hb).mp (by omega)
  linarith

theorem ceilDiv_eq_of_le {a b d : ℤ} (ha : 0 ≤ a) (hb : 0 < b) (hq : 1 < ceilDiv a b)
    (hbd : b ≤ d) (hd : d ≤ (a - 1) / (ceilDiv a b - 1)) : ceilDiv a d = ceilDiv a b := by
  refine le_antisymm (ceilDiv_antitone ha hb hbd) ?_
  have hlt : ceilDiv a b - 1 < ceilDiv a d := by
    rw [Int.le_ediv_iff_mul_le (by omega)] at hd
    rw [lt_ceilDiv_iff (hb.trans_le hbd)]
    linarith
  omega

/-! ## entering intervals -/

variable {differences next last : List ℤ} {start stop middle slot value : ℤ} {f g : ℤ → ℤ}

def sumTo (differences : List ℤ) (slot : ℤ) : ℤ := (differences.take (slot + 1).toNat).sum

@[simp] theorem sumTo_replicate {n : ℕ} : sumTo (List.replicate n 0) slot = 0 := by
  simp [sumTo]

def addAt (differences : List ℤ) (slot value : ℤ) : List ℤ :=
  differences.modify slot.toNat (· + value)

def addInterval (differences : List ℤ) (start stop value : ℤ) : List ℤ :=
  if stop < start then differences
  else addAt (addAt differences start value) (stop + 1) (-value)

theorem sum_take_modify (differences : List ℤ) (i n : ℕ) (value : ℤ) (hi : i < differences.length) :
    ((differences.modify i (· + value)).take n).sum =
      (differences.take n).sum + if i < n then value else 0 := by
  induction differences generalizing i n with
  | nil => simp at hi
  | cons d rest ih =>
    cases n with
    | zero => simp
    | succ n =>
      cases i with
      | zero => simp [add_right_comm]
      | succ i =>
        have := ih i n (by simpa using hi)
        simp [this, add_assoc]

@[simp] theorem length_addAt : (addAt differences slot value).length = differences.length := by
  simp [addAt]

theorem sumTo_addAt {at_ : ℤ} (h0 : 0 ≤ at_) (hlt : at_ < differences.length) :
    sumTo (addAt differences at_ value) slot =
      sumTo differences slot + if at_ ≤ slot then value else 0 := by
  rw [sumTo, addAt, sum_take_modify _ _ _ _ (by omega), sumTo]
  congr 1
  by_cases h : at_ ≤ slot
  · rw [if_pos h, if_pos (by omega)]
  · rw [if_neg h, if_neg (by omega)]

/-- The second array has the values of `f` on an interval more than the first. -/
structure Adds (differences next : List ℤ) (start stop : ℤ) (f : ℤ → ℤ) : Prop where
  length_eq : next.length = differences.length
  sumTo_eq : ∀ slot, sumTo next slot =
    sumTo differences slot + if start ≤ slot ∧ slot ≤ stop then f slot else 0

theorem Adds.of_empty (h : stop < start) : Adds differences differences start stop f where
  length_eq := rfl
  sumTo_eq slot := by rw [if_neg (by omega), add_zero]

theorem adds_addInterval (h0 : 0 ≤ start) (hs : stop + 1 < differences.length)
    (hf : ∀ slot, start ≤ slot → slot ≤ stop → f slot = value) :
    Adds differences (addInterval differences start stop value) start stop f := by
  unfold addInterval
  by_cases he : stop < start
  · rw [if_pos he]
    exact .of_empty he
  rw [if_neg he]
  refine ⟨by simp, fun slot => ?_⟩
  rw [sumTo_addAt (by omega) (by simpa using hs), sumTo_addAt h0 (by omega), add_assoc]
  congr 1
  -- before, inside and after the interval
  by_cases h1 : start ≤ slot
  · by_cases h2 : slot ≤ stop
    · rw [if_pos h1, if_neg (by omega), if_pos ⟨h1, h2⟩, hf slot h1 h2, add_zero]
    · rw [if_pos h1, if_pos (by omega), if_neg (by omega), add_neg_cancel]
  · rw [if_neg h1, if_neg (by omega), if_neg (by omega), add_zero]

theorem value_adjacent (f : ℤ → ℤ) (slot : ℤ) (hm : start ≤ middle + 1) (hms : middle ≤ stop) :
    ((if start ≤ slot ∧ slot ≤ middle then f slot else 0) +
      if middle + 1 ≤ slot ∧ slot ≤ stop then f slot else 0) =
      if start ≤ slot ∧ slot ≤ stop then f slot else 0 := by
  by_cases h1 : slot ≤ middle
  · rw [if_neg (show ¬ (middle + 1 ≤ slot ∧ slot ≤ stop) by omega), add_zero]
    by_cases h2 : start ≤ slot
    · rw [if_pos ⟨h2, h1⟩, if_pos (by omega)]
    · rw [if_neg (by omega), if_neg (by omega)]
  · rw [if_neg (show ¬ (start ≤ slot ∧ slot ≤ middle) by omega), zero_add]
    by_cases h2 : slot ≤ stop
    · rw [if_pos (by omega), if_pos (by omega)]
    · rw [if_neg (by omega), if_neg (by omega)]

theorem Adds.append (h : Adds differences next start middle f)
    (h' : Adds next last (middle + 1) stop f) (hm : start ≤ middle + 1) (hms : middle ≤ stop) :
    Adds differences last start stop f := by
  refine ⟨h'.length_eq.trans h.length_eq, fun slot => ?_⟩
  rw [h'.sumTo_eq, h.sumTo_eq, add_assoc, value_adjacent f slot hm hms]

theorem Adds.prepend (h : Adds differences next (middle + 1) stop f)
    (h' : Adds next last start middle f) (hm : start ≤ middle + 1) (hms : middle ≤ stop) :
    Adds differences last start stop f := by
  refine ⟨h'.length_eq.trans h.length_eq, fun slot => ?_⟩
  rw [h'.sumTo_eq, h.sumTo_eq, add_assoc, ← value_adjacent f slot hm hms, add_comm (ite _ _ _)]

theorem Adds.congr (h : Adds differences next start stop f)
    (hf : ∀ slot, start ≤ slot → slot ≤ stop → f slot = g slot) :
    Adds differences next start stop g := by
  refine ⟨h.length_eq, fun slot => ?_⟩
  rw [h.sumTo_eq]
  congr 1
  by_cases hs : start ≤ slot ∧ slot ≤ stop
  · rw [if_pos hs, if_pos hs, hf slot hs.1 hs.2]
  · rw [if_neg hs, if_neg hs]

theorem Adds.trans (h : Adds differences next start stop f) (h' : Adds next last start stop g) :
    Adds differences last start stop fun slot => f slot + g slot := by
  refine ⟨h'.length_eq.trans h.length_eq, fun slot => ?_⟩
  rw [h'.sumTo_eq, h.sumTo_eq, add_assoc]
  congr 1
  by_cases hs : start ≤ slot ∧ slot ≤ stop
  · rw [if_pos hs, if_pos hs, if_pos hs]
  · rw [if_neg hs, if_neg hs, if_neg hs, add_zero]

/-! ## reading the values -/

def slots (start stop : ℤ) : List ℤ := (List.range (stop + 1 - start).toNat).map
    fun i : ℕ => start + i

@[simp] theorem mem_slots : slot ∈ slots start stop ↔ start ≤ slot ∧ slot ≤ stop := by
  simp only [slots, mem_map, mem_range]
  constructor
  · rintro ⟨i, hi, rfl⟩
    omega
  · rintro ⟨h1, h2⟩
    exact ⟨(slot - start).toNat, by omega, by omega⟩

def readSlot (differences : List ℤ) (state : ℤ × List ℤ) (slot : ℤ) : ℤ × List ℤ :=
  let running := state.1 + differences.getD slot.toNat 0
  (running, state.2.set slot.toNat running)

/-- The values at the slots of an interval, in an array of `size` zeros. -/
def values (size : ℕ) (start stop : ℤ) (differences : List ℤ) : List ℤ :=
  ((slots start stop).foldl (readSlot differences) (0, List.replicate size 0)).2

theorem sumTo_add_one (differences : List ℤ) (slot : ℤ) (h0 : 0 ≤ slot + 1) :
    sumTo differences (slot + 1) =
      sumTo differences slot + differences.getD (slot + 1).toNat 0 := by
  have hn : (slot + 1 + 1).toNat = (slot + 1).toNat + 1 := by omega
  rw [sumTo, sumTo, hn, take_add_one, sum_append, getD_eq_getElem?_getD]
  cases differences[(slot + 1).toNat]? <;> simp

theorem foldl_readSlot (differences : List ℤ) (n : ℕ) (state : ℤ × List ℤ) (h0 : 0 ≤ start)
    (hr : state.1 = sumTo differences (start - 1))
    (hs : start + n ≤ state.2.length) :
    let result := ((List.range n).map fun i : ℕ => start + (i : ℤ)).foldl
      (readSlot differences) state
    result.1 = sumTo differences (start + n - 1) ∧ result.2.length = state.2.length ∧
      ∀ slot : ℤ, start ≤ slot → slot < start + n →
        result.2.getD slot.toNat 0 = sumTo differences slot := by
  induction n with
  | zero =>
    refine ⟨by simpa using hr, rfl, fun slot h1 h2 => ?_⟩
    have : slot < start := by simpa using h2
    omega
  | succ n ih =>
    obtain ⟨hsm, hl, hv⟩ := ih (by push_cast at hs; omega)
    have hn : sumTo differences (start + n) =
        sumTo differences (start + n - 1) + differences.getD (start + n).toNat 0 := by
      have := sumTo_add_one differences (start + n - 1) (by omega)
      rwa [sub_add_cancel] at this
    dsimp only at hsm hl hv ⊢
    rw [range_succ, map_append, foldl_append]
    simp only [map_cons, map_nil, foldl_cons, foldl_nil, readSlot, hsm, length_set, ← hn]
    refine ⟨by push_cast; ring_nf, hl, fun slot h1 h2 => ?_⟩
    push_cast at hs h2
    by_cases hsl : slot = start + n
    · subst hsl
      rw [getD_eq_getElem?_getD, List.getElem?_set_self (by omega), Option.getD_some]
    · rw [getD_eq_getElem?_getD, List.getElem?_set_ne (by omega), ← getD_eq_getElem?_getD]
      exact hv slot h1 (by omega)

/-- **The values read are the sums of the differences**, where nothing is entered before the
first slot. -/
theorem values_eq {size : ℕ} (h0 : 0 ≤ start) (hs : stop < size)
    (hb : sumTo differences (start - 1) = 0) (h1 : start ≤ slot) (h2 : slot ≤ stop) :
    (values size start stop differences).getD slot.toNat 0 = sumTo differences slot := by
  have hn : ((stop + 1 - start).toNat : ℤ) = stop + 1 - start := by omega
  have := foldl_readSlot differences (stop + 1 - start).toNat
    (0, List.replicate size 0) h0 hb.symm (by rw [length_replicate, hn]; omega)
  exact this.2.2 slot h1 (by omega)

end DifferenceArray

namespace Bisection

/-- The last point of a property that holds up to some point: `last` is the last point known to
have it, and the points from `low` to `high` are open. -/
def lastTrue (p : ℤ → Bool) : ℕ → ℤ → ℤ → ℤ → Option ℤ
  | fuel, low, high, last =>
    if high < low then some last
    else match fuel with
      | 0 => none
      | fuel + 1 =>
        let middle := (low + high) / 2
        if p middle then lastTrue p fuel (middle + 1) high middle
        else lastTrue p fuel low (middle - 1) last

theorem lastTrue_eq_some {p : ℤ → Bool} {first final : ℤ}
    (hm : ∀ s t, first ≤ s → s ≤ t → t ≤ final → p t → p s) {fuel : ℕ} {low high : ℤ}
    (hfu : (high + 1 - low).toNat ≤ fuel) (hl : first ≤ low) (hle : low ≤ high + 1)
    (hh : high ≤ final) (hb : ∀ s, first ≤ s → s < low → p s)
    (ha : ∀ s, high < s → s ≤ final → p s = false) :
    ∃ last, lastTrue p fuel low high (low - 1) = some last ∧ first - 1 ≤ last ∧ last ≤ final ∧
      (∀ s, first ≤ s → s ≤ last → p s) ∧ ∀ s, last < s → s ≤ final → p s = false := by
  induction fuel generalizing low high with
  | zero =>
    have hls : high = low - 1 := by omega
    rw [lastTrue, if_pos (by omega)]
    exact ⟨_, rfl, by omega, by omega, fun s h1 h2 => hb s h1 (by omega),
      fun s h1 h2 => ha s (by omega) h2⟩
  | succ fuel ih =>
    rw [lastTrue]
    by_cases hd : high < low
    · rw [if_pos hd]
      exact ⟨_, rfl, by omega, by omega, fun s h1 h2 => hb s h1 (by omega),
        fun s h1 h2 => ha s (by omega) h2⟩
    rw [if_neg hd]
    dsimp only
    -- the midpoint is one of the open points
    have hm1 : low ≤ (low + high) / 2 := by omega
    have hm2 : (low + high) / 2 ≤ high := by omega
    generalize (low + high) / 2 = middle at hm1 hm2
    by_cases hp : p middle
    · rw [if_pos hp]
      have hn := @ih (middle + 1) high (by omega) (by omega) (by omega) hh
        (fun s h1 h2 => hm s middle h1 (by omega) (by omega) hp) ha
      rwa [add_sub_cancel_right] at hn
    · rw [if_neg hp]
      have hf : p middle = false := by simpa using hp
      refine ih (by omega) hl (by omega) (by omega) hb fun s h1 h2 => ?_
      by_contra hs
      have : p middle := hm middle s (by omega) (by omega) h2 (by simpa using hs)
      rw [hf] at this
      exact Bool.false_ne_true this

end Bisection
