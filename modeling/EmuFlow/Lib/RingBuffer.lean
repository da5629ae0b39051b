import Mathlib.Tactic

/-!
# Bounded queues and the ring memories that hold them

A queue of bounded length takes at most one item and gives at most one item in a step; whether it
takes one is decided by its length before the step. A ring memory holds such a queue between two
wrapping pointers.
-/

namespace RingBuffer

open List

variable {α : Type} {capacity n : Nat}

/-! ## queues -/

/-- A queue of at most `capacity` items, the oldest first. -/
structure Queue (α : Type) (capacity : Nat) where
  items : List α
  bounded : items.length ≤ capacity

namespace Queue

def empty : Queue α capacity := ⟨[], Nat.zero_le _⟩

variable (q : Queue α capacity) (input : Option α) (pop : Bool)

/-- What a step adds: the offered item, if there is room before the step. -/
def pushed : List α := if q.items.length < capacity then input.toList else []

/-- What a step removes: the oldest item, if the step asks for it. -/
def popped : List α := if pop then q.items.take 1 else []

def stepItems : List α := (if pop then q.items.drop 1 else q.items) ++ q.pushed input

theorem stepItems_eq : q.items ++ q.pushed input = q.popped pop ++ q.stepItems input pop := by
  cases pop with
  | false => rfl
  | true =>
    simp only [popped, stepItems, if_true]
    rw [← append_assoc, take_append_drop]

theorem length_stepItems_le : (q.stepItems input pop).length ≤ capacity := by
  have hi : input.toList.length ≤ 1 := by cases input <;> simp
  have hk : (if pop then q.items.drop 1 else q.items).length ≤ q.items.length := by
    split
    · rw [length_drop]
      omega
    · exact le_rfl
  have hp : q.items.length + (q.pushed input).length ≤ capacity := by
    have hb := q.bounded
    by_cases hr : q.items.length < capacity
    · rw [pushed, if_pos hr]
      omega
    · rw [pushed, if_neg hr, length_nil]
      exact hb
  rw [stepItems, length_append]
  omega

def step : Queue α capacity := ⟨q.stepItems input pop, q.length_stepItems_le input pop⟩

def run (capacity : Nat) (inputs : Nat → Option α) (pops : Nat → Bool) : Nat → Queue α capacity
  | 0 => empty
  | t + 1 => (run capacity inputs pops t).step (inputs t) (pops t)

variable {inputs : Nat → Option α} {pops : Nat → Bool}

/-- What was pushed is what was popped and what is held. -/
theorem conservation (t : Nat) :
    ((List.range t).flatMap fun s => (run capacity inputs pops s).pushed (inputs s)) =
      ((List.range t).flatMap fun s => (run capacity inputs pops s).popped (pops s)) ++
      (run capacity inputs pops t).items := by
  induction t with
  | zero => rfl
  | succ t ih =>
    rw [range_succ, flatMap_append, flatMap_append, ih, append_assoc,
      append_assoc, flatMap_singleton, flatMap_singleton,
      stepItems_eq (run capacity inputs pops t) (inputs t) (pops t)]
    rfl

end Queue

def store (memory : BitVec n → α) (write : BitVec n) (a : α) : BitVec n → α :=
  fun i => if i = write then a else memory i

/-- The `count` items from `read` on. -/
def window (memory : BitVec n → α) (read : BitVec n) (count : Nat) : List α :=
  (List.range count).map fun i => memory (read + BitVec.ofNat n i)

variable {memory : BitVec n → α} {read write : BitVec n} {count : Nat} {a : α}

@[simp] theorem length_window : (window memory read count).length = count := by
  rw [window, length_map, length_range]

theorem window_push (hw : write = read + BitVec.ofNat n count) (hr : count < 2 ^ n) :
    window (store memory write a) read (count + 1) = window memory read count ++ [a] := by
  rw [window, window, range_succ, map_append, map_singleton]
  refine congrArg₂ _ (map_congr_left fun i hi => ?_) ?_
  · have hlt : i < count := mem_range.mp hi
    have hne : read + BitVec.ofNat n i ≠ write := by
      intro heq
      have ho : BitVec.ofNat n i = BitVec.ofNat n count :=
        (BitVec.add_right_inj read).mp (heq.trans hw)
      have hn := congrArg BitVec.toNat ho
      rw [BitVec.toNat_ofNat, BitVec.toNat_ofNat, Nat.mod_eq_of_lt (hlt.trans hr),
        Nat.mod_eq_of_lt hr] at hn
      omega
    exact if_neg hne
  · rw [store, if_pos hw.symm]

theorem window_pop :
    window memory read (count + 1) = memory read :: window memory (read + 1) count := by
  rw [window, window, range_succ_eq_map, map_cons, map_map, BitVec.ofNat_eq_ofNat, BitVec.add_zero]
  refine congrArg _ (map_congr_left fun i _ => ?_)
  rw [Function.comp_apply, Nat.succ_eq_add_one, BitVec.ofNat_add, BitVec.add_assoc,
    BitVec.add_comm (BitVec.ofNat n i)]

end RingBuffer
