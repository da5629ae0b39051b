import Mathlib.Tactic

/-!
# Detection of up to three flipped bits

A linear check of a word depends on the flipped bits alone: it is the sum of one syndrome for each
of them. When the syndromes are odd and pairwise different, no one, two or three of them add up to
zero.
-/

namespace ErrorDetection

open List

variable {w n : Nat}

/-! ## the bits of a word -/

def flips (x : BitVec w) : List Nat := (List.range w).filter x.getLsbD

def weight (x : BitVec w) : Nat := (flips x).length

theorem mem_flips {x : BitVec w} {i : Nat} : i ∈ flips x ↔ x.getLsbD i = true := by
  rw [flips, mem_filter, mem_range]
  constructor
  · exact And.right
  · intro h
    exact ⟨BitVec.lt_of_getLsbD h, h⟩

theorem nodup_flips (x : BitVec w) : (flips x).Nodup := nodup_range.filter _

theorem weight_eq_zero {x : BitVec w} : weight x = 0 ↔ x = 0 := by
  rw [weight, length_eq_zero_iff, eq_nil_iff_forall_not_mem]
  constructor
  · intro h
    apply BitVec.eq_of_getLsbD_eq
    intro i _
    rw [BitVec.ofNat_eq_ofNat, BitVec.getLsbD_zero, ← Bool.not_eq_true, ← mem_flips]
    exact h i
  · rintro rfl i hi
    rw [mem_flips, BitVec.ofNat_eq_ofNat, BitVec.getLsbD_zero] at hi
    cases hi

def total (words : List (BitVec n)) : BitVec n := words.foldr (· ^^^ ·) 0

@[simp] theorem total_nil : total ([] : List (BitVec n)) = 0 := rfl

@[simp] theorem total_cons {word : BitVec n} {words : List (BitVec n)} :
    total (word :: words) = word ^^^ total words := rfl

theorem total_append {left right : List (BitVec n)} :
    total (left ++ right) = total left ^^^ total right := by
  induction left with
  | nil => simp
  | cons word words ih => rw [cons_append, total_cons, total_cons, ih, BitVec.xor_assoc]

/-- The bit `j` of a sum of different unit words. -/
theorem getLsbD_total_twoPow {positions : List Nat} (hnd : positions.Nodup) {j : Nat} (hj : j < w) :
    (total (positions.map (BitVec.twoPow w))).getLsbD j = decide (j ∈ positions) := by
  induction positions with
  | nil => simp
  | cons i positions ih =>
    obtain ⟨hi, hnd⟩ := nodup_cons.mp hnd
    rw [map_cons, total_cons, BitVec.getLsbD_xor, ih hnd, BitVec.getLsbD_twoPow]
    by_cases hij : i = j
    · subst hij
      simp [hj, hi]
    · simp [hij, Ne.symm hij]

theorem total_flips (x : BitVec w) : total ((flips x).map (BitVec.twoPow w)) = x := by
  apply BitVec.eq_of_getLsbD_eq
  intro j hj
  rw [getLsbD_total_twoPow (nodup_flips x) hj]
  simp [mem_flips]

def Linear (f : BitVec w → BitVec n) : Prop := ∀ a b, f (a ^^^ b) = f a ^^^ f b

variable {f : BitVec w → BitVec n}

theorem Linear.zero (h : Linear f) : f 0 = 0 := by
  have hs : f (0 ^^^ 0) = f 0 ^^^ f 0 := h 0 0
  rwa [BitVec.xor_self, BitVec.xor_self] at hs

theorem Linear.map_total (h : Linear f) (words : List (BitVec w)) :
    f (total words) = total (words.map f) := by
  induction words with
  | nil => exact h.zero
  | cons word words ih => rw [total_cons, h, ih, map_cons, total_cons]

theorem Linear.eq_total (h : Linear f) (x : BitVec w) :
    f x = total ((flips x).map fun i => f (BitVec.twoPow w i)) := by
  conv_lhs => rw [← total_flips x, h.map_total, map_map]
  rfl

/-! ## odd syndromes -/

def parityAt (positions : List Nat) (x : BitVec n) : Bool :=
  positions.foldr (fun i acc => x.getLsbD i ^^ acc) false

def parity (x : BitVec n) : Bool := parityAt (List.range n) x

theorem parityAt_xor (positions : List Nat) (a b : BitVec n) :
    parityAt positions (a ^^^ b) = (parityAt positions a ^^ parityAt positions b) := by
  induction positions with
  | nil => rfl
  | cons i positions ih =>
    show ((a ^^^ b).getLsbD i ^^ parityAt positions (a ^^^ b)) =
      ((a.getLsbD i ^^ parityAt positions a) ^^ (b.getLsbD i ^^ parityAt positions b))
    rw [ih, BitVec.getLsbD_xor]
    cases a.getLsbD i <;> cases b.getLsbD i <;> cases parityAt positions a <;>
      cases parityAt positions b <;> rfl

theorem parity_xor (a b : BitVec n) : parity (a ^^^ b) = (parity a ^^ parity b) :=
  parityAt_xor _ a b

theorem parity_zero : parity (0 : BitVec n) = false := by
  have h := parity_xor (0 : BitVec n) 0
  rwa [BitVec.xor_self, Bool.xor_self] at h

theorem total_ne_zero {syndromes : List (BitVec n)} (hnd : syndromes.Nodup)
    (ho : ∀ s ∈ syndromes, parity s = true) (hps : syndromes ≠ [])
    (hf : syndromes.length ≤ 3) : total syndromes ≠ 0 := by
  intro hz
  have hp : parity (total syndromes) = false := by rw [hz, parity_zero]
  match syndromes, hps, hf with
  | [a], _, _ =>
    simp [ho a] at hp
  | [a, b], _, _ =>
    -- an even number of odd words passes the parity; but these two differ
    rw [total_cons, total_cons, total_nil] at hz
    have ha : a = b := by
      rw [BitVec.ofNat_eq_ofNat, BitVec.xor_zero] at hz
      exact BitVec.xor_eq_zero_iff.mp hz
    exact (nodup_cons.mp hnd).1 (by rw [ha]; exact mem_singleton_self b)
  | [a, b, c], _, _ =>
    simp [parity_xor, ho a, ho b, ho c] at hp

end ErrorDetection
