import EmuFlow.Lib.OpenAddressing

/-!
# The occupancy table of the slot optimizer

A schedule occupies one cell of a lane and a slot for each hop. The cells lie in a table of at
least twice as many entries as there are hops, which every schedule starts anew.
-/

namespace EmuFlow.Tdm.SlotOptimizer

open OpenAddressing List

/-- How often the capacity 2 is doubled, and once more. -/
def capacityBits (need bits : Nat) : Nat :=
  if 2 ^ bits < need then capacityBits need (bits + 1) else bits
termination_by need - 2 ^ bits
decreasing_by
  have hpos := Nat.two_pow_pos bits
  omega

/-- `occupancy_capacity`; an `int` of hops never overflows it. -/
def occupancyCapacity (hopCount : Nat) : Nat := 2 ^ capacityBits (2 * hopCount) 1

abbrev Key := BitVec 64

def emptyOccupancy : Key := BitVec.allOnes 64

/-- The cells of a frame: a lane resource, which is an `int`, and a slot. -/
abbrev Cell (frameSlots : Nat) := Fin (2 ^ 31) × Fin frameSlots

variable {hopCount frameSlots : Nat}

def occupancyKey (cell : Cell frameSlots) : Key :=
  BitVec.ofNat 64 cell.1 * BitVec.ofNat 64 frameSlots + BitVec.ofNat 64 cell.2

/-- The table `occupied`. -/
abbrev Occupied (hopCount : Nat) := Fin (occupancyCapacity hopCount) → Key

def occupancyIndex (key : Key) : Fin (occupancyCapacity hopCount) :=
  ⟨(key * 11400714819323198485).toNat &&& (occupancyCapacity hopCount - 1),
    Nat.and_lt_two_pow _ (Nat.sub_lt (Nat.two_pow_pos _) Nat.one_pos)⟩

def isOccupied (occupied : Occupied hopCount) (cell : Cell frameSlots) : Option Bool :=
  contains emptyOccupancy occupied (occupancyKey cell) (occupancyCapacity hopCount)
    (occupancyIndex (occupancyKey cell))

/-- What schedules do with the table: `occupy`, `is_occupied` and the new table of the next one. -/
def runTable (hopCount : Nat) (ops : List (Op (Cell frameSlots))) : Option (Occupied hopCount) :=
  run emptyOccupancy occupancyIndex (ops.map (Op.map occupancyKey))

theorem le_capacityBits (need bits : Nat) : need ≤ 2 ^ capacityBits need bits := by
  induction bits using capacityBits.induct need with
  | case1 bits h ih =>
    rw [capacityBits, if_pos h]
    exact ih
  | case2 bits h =>
    rw [capacityBits, if_neg h]
    exact not_lt.mp h

theorem lt_occupancyCapacity (hopCount : Nat) : hopCount < occupancyCapacity hopCount := by
  have hle := le_capacityBits (2 * hopCount) 1
  have hpos := Nat.two_pow_pos (capacityBits (2 * hopCount) 1)
  rw [occupancyCapacity]
  omega

section

variable (hframe : frameSlots < 2 ^ 31)
include hframe

theorem toNat_occupancyKey (cell : Cell frameSlots) :
    (occupancyKey cell).toNat = cell.1 * frameSlots + cell.2 ∧
      (cell.1 * frameSlots + cell.2 : Nat) < 2 ^ 62 := by
  obtain ⟨lane, slot⟩ := cell
  have hb : (lane * frameSlots + slot : Nat) < 2 ^ 62 := calc
    (lane * frameSlots + slot : Nat) < lane * frameSlots + frameSlots :=
      Nat.add_lt_add_left slot.isLt _
    _ = (lane + 1) * frameSlots := (Nat.succ_mul ..).symm
    _ ≤ 2 ^ 31 * 2 ^ 31 := Nat.mul_le_mul lane.isLt hframe.le
    _ = 2 ^ 62 := rfl
  refine ⟨?_, hb⟩
  rw [occupancyKey, ← BitVec.ofNat_mul, ← BitVec.ofNat_add, BitVec.toNat_ofNat]
  exact Nat.mod_eq_of_lt (hb.trans (by decide))

theorem occupancyKey_ne_empty (cell : Cell frameSlots) : occupancyKey cell ≠ emptyOccupancy := by
  obtain ⟨hn, hb⟩ := toNat_occupancyKey hframe cell
  intro heq
  rw [← hn, heq] at hb
  exact absurd hb (by decide)

theorem occupancyKey_injective :
    Function.Injective (occupancyKey : Cell frameSlots → Key) := by
  intro a b heq
  have hpos : 0 < frameSlots := a.2.pos
  have hsm : (a.2 + frameSlots * a.1 : Nat) = b.2 + frameSlots * b.1 := by
    have hn := congrArg BitVec.toNat heq
    rw [(toNat_occupancyKey hframe a).1, (toNat_occupancyKey hframe b).1] at hn
    rw [Nat.mul_comm, Nat.add_comm, hn, Nat.mul_comm, Nat.add_comm]
  have hl := congrArg (· / frameSlots) hsm
  have hs := congrArg (· % frameSlots) hsm
  simp only [Nat.add_mul_div_left _ _ hpos, Nat.div_eq_of_lt a.2.isLt, Nat.div_eq_of_lt b.2.isLt,
    Nat.zero_add] at hl
  simp only [Nat.add_mul_mod_self_left, Nat.mod_eq_of_lt a.2.isLt,
    Nat.mod_eq_of_lt b.2.isLt] at hs
  exact Prod.ext (Fin.ext hl) (Fin.ext hs)

end

/--
**The occupancy table is a set of cells.**

A schedule takes each hop from its queue once, so that it occupies at most one cell for a hop. After
every sequence of such insertions, of queries and of new tables every probe has ended, and one for
a cell ends and finds it exactly if it was occupied in this table.
-/
theorem isOccupied_spec (hopCount : Nat) (hframe : frameSlots < 2 ^ 31)
    (ops : List (Op (Cell frameSlots)))
    (hhops : ∀ pre, pre <+: ops → (inserted pre).length ≤ hopCount) :
    ∃ occupied, runTable hopCount ops = some occupied ∧
      ∀ cell, isOccupied occupied cell = some (decide (cell ∈ inserted ops)) := by
  have hroom : ∀ pre, pre <+: ops.map (Op.map occupancyKey) →
      (inserted pre).length < occupancyCapacity hopCount := by
    intro pre hpre
    obtain ⟨cells, hcells, rfl⟩ := prefix_map_iff.mp hpre
    rw [inserted_map, length_map]
    exact (hhops cells hcells).trans_lt (lt_occupancyCapacity hopCount)
  have hkey : ∀ op ∈ ops.map (Op.map occupancyKey), ∀ k ∈ op.key?, k ≠ emptyOccupancy := by
    intro op hop k hk
    obtain ⟨op, -, rfl⟩ := mem_map.mp hop
    cases op <;> cases hk <;> exact occupancyKey_ne_empty hframe _
  obtain ⟨occupied, hrun, hholds⟩ := run_spec occupancyIndex hroom hkey
  refine ⟨occupied, hrun, fun cell => ?_⟩
  rw [isOccupied, hholds.contains (hroom _ (prefix_refl _)) (occupancyKey_ne_empty hframe cell),
    inserted_map]
  exact congrArg some (decide_eq_decide.mpr
    (mem_map_of_injective (occupancyKey_injective hframe)))

theorem isOccupied_spec_two_tables :
    ∃ occupied, runTable 2 [.insert (0, 1), .query (0, 2), .insert (0, 2), .clear,
        .insert ((3, 1) : Cell 8)] = some occupied ∧
      isOccupied occupied ((3, 1) : Cell 8) = some true ∧
      isOccupied occupied ((0, 1) : Cell 8) = some false := by
  obtain ⟨occupied, hrun, hspec⟩ := isOccupied_spec 2 (by decide)
    [.insert (0, 1), .query (0, 2), .insert (0, 2), .clear, .insert ((3, 1) : Cell 8)] (by
      intro pre hpre
      rw [← mem_inits] at hpre
      revert pre
      decide)
  exact ⟨occupied, hrun, hspec (3, 1), hspec (0, 1)⟩

end EmuFlow.Tdm.SlotOptimizer
