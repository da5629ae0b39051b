import Mathlib.Algebra.Order.BigOperators.Group.List
import Mathlib.Algebra.Group.Subgroup.ZPowers.Basic
import Mathlib.Data.Int.Log
import Mathlib.Data.Rat.Floor
import Mathlib.Tactic.Linarith
import Mathlib.Tactic.Ring

/-!
# Machine numbers

The integers and doubles of a program, as integers and rationals. An integer outside its width wraps
around; a rational between two doubles is rounded to the nearer one, and to the even one of two that
are equally near. Nothing is lost while the values stay within the width, or on a grid that the
doubles contain. Doubles from `2 ^ 1024` on, which are infinite, are not represented.
-/

namespace MachineInt

/-- A result of 32-bit signed arithmetic. -/
def int32 (x : ℤ) : ℤ := x.bmod (2 ^ 32)

/-- A result of 64-bit signed arithmetic. -/
def int64 (x : ℤ) : ℤ := x.bmod (2 ^ 64)

variable {x y : ℤ}

/-- A value within the width is kept. -/
theorem int32_eq (hge : -2 ^ 31 ≤ x) (hlt : x < 2 ^ 31) : int32 x = x :=
  Int.bmod_eq_of_le (by omega) (by omega)

/-- A value within the width is kept. -/
theorem int64_eq (hge : -2 ^ 63 ≤ x) (hlt : x < 2 ^ 63) : int64 x = x :=
  Int.bmod_eq_of_le (by omega) (by omega)

@[simp] theorem int64_add_int64 : int64 (int64 x + y) = int64 (x + y) := Int.bmod_add_bmod

@[simp] theorem int64_sub_int64 : int64 (int64 x - y) = int64 (x - y) := Int.bmod_sub_bmod

@[simp] theorem add_int64 : int64 (x + int64 y) = int64 (x + y) := Int.add_bmod_bmod

@[simp] theorem sub_int64 : int64 (x - int64 y) = int64 (x - y) := Int.sub_bmod_bmod

theorem int64_lt : int64 x < 2 ^ 63 := Int.bmod_lt (by decide)

end MachineInt

namespace Binary64

/-- The nearest integer, the even one of two. -/
def halfEven (x : ℚ) : ℤ :=
  if x - ⌊x⌋ < 1 / 2 then ⌊x⌋
  else if 1 / 2 < x - ⌊x⌋ then ⌊x⌋ + 1
  else if ⌊x⌋ % 2 = 0 then ⌊x⌋ else ⌊x⌋ + 1

theorem halfEven_intCast (m : ℤ) : halfEven m = m := by
  simp [halfEven]

/-- The place of the last of `precision` binary digits of `x`, none of them below `least`. -/
def lastDigit (precision : ℕ) (least : ℤ) (x : ℚ) : ℤ := max (Int.log 2 |x| + 1 - precision) least

/-- The nearest number of `precision` binary digits, none of them below `2 ^ least`. -/
def roundTo (precision : ℕ) (least : ℤ) (x : ℚ) : ℚ :=
  let unit : ℚ := 2 ^ lastDigit precision least x
  halfEven (x / unit) * unit

/-- The nearest `double`. -/
def round : ℚ → ℚ := roundTo 53 (-1074)

/-- The nearest `long double`. -/
def roundLong : ℚ → ℚ := roundTo 64 (-16445)

def add (x y : ℚ) : ℚ := round (x + y)

def sub (x y : ℚ) : ℚ := round (x - y)

def mul (x y : ℚ) : ℚ := round (x * y)

def div (x y : ℚ) : ℚ := round (x / y)

theorem two_pow_pos (k : ℤ) : (0 : ℚ) < 2 ^ k := zpow_pos two_pos k

/-! ## monotonicity -/

section monotone

variable {precision : ℕ} {least : ℤ} {x y : ℚ}

theorem floor_le_halfEven (x : ℚ) : ⌊x⌋ ≤ halfEven x ∧ halfEven x ≤ ⌊x⌋ + 1 := by
  rw [halfEven]
  split_ifs <;> omega

theorem halfEven_mono (h : x ≤ y) : halfEven x ≤ halfEven y := by
  rcases (Int.floor_le_floor h).lt_or_eq with hlt | heq
  · exact (floor_le_halfEven x).2.trans ((Int.add_one_le_iff.mpr hlt).trans (floor_le_halfEven y).1)
  · have hc : (⌊x⌋ : ℚ) = ⌊y⌋ := by rw [heq]
    rw [halfEven, halfEven, heq]
    split_ifs <;> first | omega | linarith

@[simp] theorem roundTo_zero : roundTo precision least 0 = 0 := by
  simp [roundTo, halfEven]

/-- A power of two at or above the last digit of a number lies on its grid. -/
theorem zpow_eq_mul {e j : ℤ} (h : e ≤ j) : ∃ m : ℤ, (2 : ℚ) ^ j = m * 2 ^ e := by
  obtain ⟨d, rfl⟩ := Int.le.dest h
  exact ⟨2 ^ d, by rw [zpow_add₀ two_ne_zero, zpow_natCast, mul_comm]; push_cast; rfl⟩

theorem roundTo_le_zpow {j : ℤ} (hj : lastDigit precision least x ≤ j) (h : x ≤ 2 ^ j) :
    roundTo precision least x ≤ 2 ^ j := by
  obtain ⟨m, hm⟩ := zpow_eq_mul hj
  have hp : (0 : ℚ) < 2 ^ lastDigit precision least x := two_pow_pos _
  rw [hm] at h ⊢
  have hle := halfEven_mono ((div_le_iff₀ hp).mpr h)
  rw [halfEven_intCast] at hle
  exact mul_le_mul_of_nonneg_right (by exact_mod_cast hle) hp.le

theorem zpow_le_roundTo {j : ℤ} (hj : lastDigit precision least x ≤ j) (h : 2 ^ j ≤ x) :
    2 ^ j ≤ roundTo precision least x := by
  obtain ⟨m, hm⟩ := zpow_eq_mul hj
  have hp : (0 : ℚ) < 2 ^ lastDigit precision least x := two_pow_pos _
  rw [hm] at h ⊢
  have hle := halfEven_mono ((le_div_iff₀ hp).mpr h)
  rw [halfEven_intCast] at hle
  exact mul_le_mul_of_nonneg_right (by exact_mod_cast hle) hp.le

theorem roundTo_nonneg (h : 0 ≤ x) : 0 ≤ roundTo precision least x := by
  have hp : (0 : ℚ) < 2 ^ lastDigit precision least x := two_pow_pos _
  have hle := halfEven_mono (div_nonneg h hp.le)
  rw [← Int.cast_zero, halfEven_intCast] at hle
  exact mul_nonneg (by exact_mod_cast hle) hp.le

/-- Rounding keeps the order. -/
theorem roundTo_mono (hp : 0 < precision) (hx : 0 ≤ x) (h : x ≤ y) :
    roundTo precision least x ≤ roundTo precision least y := by
  rcases hx.eq_or_lt with rfl | hps
  · rw [roundTo_zero]
    exact roundTo_nonneg h
  have hlg : Int.log 2 |x| ≤ Int.log 2 |y| := by
    rw [abs_of_pos hps, abs_of_pos (hps.trans_le h)]
    exact Int.log_mono_right hps h
  rcases eq_or_ne (lastDigit precision least x) (lastDigit precision least y) with heq | hne
  · rw [roundTo, roundTo, heq]
    have hu := two_pow_pos (lastDigit precision least y)
    exact mul_le_mul_of_nonneg_right
      (by exact_mod_cast halfEven_mono (div_le_div_of_nonneg_right h hu.le)) hu.le
  · -- the power of two between the two is on the grids of both
    have hlt : Int.log 2 |x| + 1 ≤ Int.log 2 |y| ∧ lastDigit precision least x ≤ Int.log 2 |y| ∧
        lastDigit precision least y ≤ Int.log 2 |y| := by
      rw [lastDigit, lastDigit] at *
      omega
    have hup : x < 2 ^ (Int.log 2 |x| + 1) := by
      rw [abs_of_pos hps]
      exact_mod_cast Int.lt_zpow_succ_log_self Nat.one_lt_two x
    have hl : 2 ^ Int.log 2 |y| ≤ y := by
      rw [abs_of_pos (hps.trans_le h)]
      exact_mod_cast Int.zpow_log_le_self Nat.one_lt_two (hps.trans_le h)
    have hm : x ≤ 2 ^ Int.log 2 |y| :=
      hup.le.trans (zpow_le_zpow_right₀ one_le_two hlt.1)
    exact (roundTo_le_zpow hlt.2.1 hm).trans (zpow_le_roundTo hlt.2.2 hl)

theorem round_mono (hx : 0 ≤ x) (h : x ≤ y) : round x ≤ round y :=
  roundTo_mono (by decide) hx h

theorem round_nonneg (h : 0 ≤ x) : 0 ≤ round x := roundTo_nonneg h

end monotone

/-! ## grids -/

/-- The multiples of a power of two. -/
def grid (k : ℤ) : AddSubgroup ℚ := AddSubgroup.zmultiples (2 ^ k)

variable {k : ℤ} {x y : ℚ}

theorem mem_grid : x ∈ grid k ↔ ∃ m : ℤ, x = m * 2 ^ k := by
  simp [grid, AddSubgroup.mem_zmultiples_iff, eq_comm]

theorem intCast_mul_mem_grid (h : x ∈ grid k) (m : ℤ) : x * m ∈ grid k := by
  rw [mul_comm, ← zsmul_eq_mul]
  exact (grid k).zsmul_mem h m

/-- Two points of a grid that are not a whole step apart are the same. -/
theorem eq_of_mem_grid (hx : x ∈ grid k) (hy : y ∈ grid k) (h : |x - y| < 2 ^ k) : x = y := by
  obtain ⟨m, hm⟩ := mem_grid.mp ((grid k).sub_mem hx hy)
  have hp : (0 : ℚ) < 2 ^ k := two_pow_pos k
  rw [hm, abs_mul, abs_of_pos hp, mul_lt_iff_lt_one_left hp] at h
  have hz : m = 0 := by
    rw [← Int.abs_lt_one_iff]
    exact_mod_cast h
  rw [hz, Int.cast_zero, zero_mul] at hm
  exact sub_eq_zero.mp hm

/-- A point of a grid with few enough digits is a double. -/
theorem round_eq (hk : -1074 ≤ k) (hx : x ∈ grid k) (hlt : |x| < 2 ^ 53 * 2 ^ k) : round x = x := by
  rcases eq_or_ne x 0 with rfl | hne
  · exact roundTo_zero
  have hl : Int.log 2 |x| < 53 + k := by
    rw [← Int.lt_zpow_iff_log_lt Nat.one_lt_two (abs_pos.mpr hne), Nat.cast_ofNat,
      zpow_add₀ two_ne_zero]
    exact hlt
  -- the last digit that is kept is not above the grid
  have hle : max (Int.log 2 |x| + 1 - 53) (-1074) ≤ k := max_le (by omega) hk
  obtain ⟨d, hd⟩ := Int.le.dest hle
  obtain ⟨m, hm⟩ := mem_grid.mp hx
  unfold round roundTo lastDigit
  dsimp only
  rw [Nat.cast_ofNat]
  generalize max (Int.log 2 |x| + 1 - 53) (-1074) = least at hd ⊢
  have hp : (0 : ℚ) < 2 ^ least := two_pow_pos least
  have hu : x / 2 ^ least = ((m * 2 ^ d : ℤ) : ℚ) := by
    rw [div_eq_iff hp.ne', hm, ← hd, zpow_add₀ two_ne_zero, zpow_natCast]
    push_cast
    ring
  rw [hu, halfEven_intCast, ← hu]
  exact div_mul_cancel₀ x hp.ne'

/-- Doubles on one grid whose magnitudes add up to less than its range: no sum of some of them, in
whatever order, is rounded. -/
structure Exact (k : ℤ) (values : List ℚ) : Prop where
  least : -1074 ≤ k
  most : k ≤ 971
  mem_grid : ∀ v ∈ values, v ∈ grid k
  sum_abs_lt : (values.map abs).sum < 2 ^ 53 * 2 ^ k

variable {values : List ℚ}

theorem sum_abs_nonneg (values : List ℚ) : 0 ≤ (values.map abs).sum :=
  List.sum_nonneg (by simp)

theorem Exact.of_sum_le {values' : List ℚ} (h : Exact k values) (hm : ∀ v ∈ values', v ∈ grid k)
    (hle : (values'.map abs).sum ≤ (values.map abs).sum) : Exact k values' :=
  { h with
    mem_grid := hm
    sum_abs_lt := hle.trans_lt h.sum_abs_lt }

theorem Exact.of_sublist {values' : List ℚ} (h : Exact k values) (hs : values'.Sublist values) :
    Exact k values' :=
  h.of_sum_le (fun v hv => h.mem_grid v (hs.subset hv))
    ((hs.map abs).sum_le_sum (by simp))

theorem Exact.round_head (h : Exact k (x :: values)) : round x = x := by
  have hlt := h.sum_abs_lt
  rw [List.map_cons, List.sum_cons] at hlt
  exact round_eq h.least (h.mem_grid x List.mem_cons_self)
    (by linarith [sum_abs_nonneg values])

/-- Two of the values may be replaced by their sum, -/
theorem Exact.cons_add (h : Exact k (x :: y :: values)) : Exact k ((x + y) :: values) := by
  obtain ⟨hx, hm⟩ := List.forall_mem_cons.mp h.mem_grid
  obtain ⟨hy, hv⟩ := List.forall_mem_cons.mp hm
  refine h.of_sum_le (List.forall_mem_cons.mpr ⟨(grid k).add_mem hx hy, hv⟩) ?_
  simp only [List.map_cons, List.sum_cons]
  linarith [abs_add_le x y]

/-- which is what the machine computes. -/
theorem Exact.add_eq (h : Exact k (x :: y :: values)) : add x y = x + y :=
  h.cons_add.round_head

theorem Exact.foldl_add (h : Exact k (x :: values)) :
    values.foldl add x = x + values.sum := by
  induction values generalizing x with
  | nil => simp
  | cons v values ih =>
    rw [List.foldl_cons, h.add_eq, ih h.cons_add, List.sum_cons, add_assoc]

section indexed

variable {ι : Type*} {l : List ι} {f g : ι → ℚ}

theorem Exact.of_abs_le (h : Exact k (l.map f)) (hg : ∀ i ∈ l, g i ∈ grid k)
    (hle : ∀ i ∈ l, |g i| ≤ |f i|) : Exact k (l.map g) := by
  refine h.of_sum_le (List.forall_mem_map.mpr hg) ?_
  rw [List.map_map, List.map_map]
  exact List.sum_le_sum hle

/-- Terms may be rounded before they are added up. -/
theorem Exact.foldl_round (h : Exact k (l.map g)) :
    l.foldl (fun sum i => add sum (round (g i))) 0 = (l.map g).sum := by
  have ht : ∀ i ∈ l, round (g i) = g i := fun i hi =>
    (h.of_sublist (List.singleton_sublist.mpr (List.mem_map_of_mem hi))).round_head
  have hz : Exact k (0 :: l.map g) :=
    h.of_sum_le (List.forall_mem_cons.mpr ⟨(grid k).zero_mem, h.mem_grid⟩) (by simp)
  rw [List.foldl_ext _ (fun sum i => add sum (g i)) _ fun sum i hi => by rw [ht i hi],
    ← List.foldl_map, hz.foldl_add, zero_add]

end indexed

end Binary64
