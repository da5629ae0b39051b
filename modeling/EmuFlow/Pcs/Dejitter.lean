import EmuFlow.Lib.RingBuffer

/-!
# The de-jitter buffer of a data edge

An elastic stream of records enters; behind a prefill threshold one record leaves in every cycle in
which the consumer is ready. The records are held in a ring memory between two wrapping pointers.
-/

namespace EmuFlow.Pcs.Dejitter

open RingBuffer List Option

/-! ## the module -/

structure Parameters where
  DEPTH : Nat
  START_THRESHOLD : Nat
  depth_ok : 4 ≤ DEPTH ∧ DEPTH &&& (DEPTH - 1) = 0
  threshold_ok : 2 ≤ START_THRESHOLD ∧ START_THRESHOLD < DEPTH

def Parameters.ADDRESS_BITS (p : Parameters) : Nat := Nat.clog 2 p.DEPTH

theorem Parameters.depth_eq (p : Parameters) : p.DEPTH = 2 ^ p.ADDRESS_BITS := by
  obtain ⟨hf, ha⟩ := p.depth_ok
  obtain ⟨k, hk⟩ : p.DEPTH.isPowerOfTwo :=
    (Nat.and_sub_one_eq_zero_iff_isPowerOfTwo (by omega)).mp ha
  rw [Parameters.ADDRESS_BITS, hk, Nat.clog_pow 2 k one_lt_two]

structure DataRecord where
  sequence : BitVec 16
  payload : BitVec 64

structure Regs (p : Parameters) where
  sequenceMemory : BitVec p.ADDRESS_BITS → BitVec 16
  payloadMemory : BitVec p.ADDRESS_BITS → BitVec 64
  writePointer : BitVec p.ADDRESS_BITS
  readPointer : BitVec p.ADDRESS_BITS
  count : BitVec (p.ADDRESS_BITS + 1)
  started : Bool
  expectedValid : Bool
  expectedSequence : BitVec 16
  overflowError : Bool
  underflowError : Bool
  sequenceError : Bool

variable {p : Parameters}

def Regs.reset (sequenceMemory : BitVec p.ADDRESS_BITS → BitVec 16)
    (payloadMemory : BitVec p.ADDRESS_BITS → BitVec 64) : Regs p :=
  { sequenceMemory, payloadMemory
    writePointer := 0, readPointer := 0, count := 0
    started := false, expectedValid := false, expectedSequence := 0
    overflowError := false, underflowError := false, sequenceError := false }

def Regs.inputReady (regs : Regs p) : Bool := regs.count.toNat < p.DEPTH

def Regs.outputValid (regs : Regs p) : Bool := regs.started && regs.count != 0

def Regs.output (regs : Regs p) : DataRecord :=
  { sequence := regs.sequenceMemory regs.readPointer
    payload := regs.payloadMemory regs.readPointer }

/-- The record that a clock edge writes: `write_enable` with the input lines. -/
def Regs.written (regs : Regs p) (input : Option DataRecord) : Option DataRecord :=
  if regs.inputReady then input else none

def Regs.readEnable (regs : Regs p) (outputReady : Bool) : Bool := regs.outputValid && outputReady

def Regs.step (regs : Regs p) (input : Option DataRecord) (outputReady : Bool) : Regs p :=
  let written := regs.written input
  let readEnable := regs.readEnable outputReady
  { sequenceMemory := match written with
      | some r => store regs.sequenceMemory regs.writePointer r.sequence
      | none => regs.sequenceMemory
    payloadMemory := match written with
      | some r => store regs.payloadMemory regs.writePointer r.payload
      | none => regs.payloadMemory
    writePointer := if written.isSome then regs.writePointer + 1 else regs.writePointer
    readPointer := if readEnable then regs.readPointer + 1 else regs.readPointer
    count := match written.isSome, readEnable with
      | true, false => regs.count + 1
      | false, true => regs.count - 1
      | _, _ => regs.count
    started := regs.started ||
      decide (p.START_THRESHOLD ≤ regs.count.toNat + if written.isSome then 1 else 0)
    expectedValid := regs.expectedValid || written.isSome
    -- the read's assignment comes after the write's
    expectedSequence := if readEnable then regs.expectedSequence + 1 else
      match written with
      | some r => if regs.expectedValid then regs.expectedSequence else r.sequence
      | none => regs.expectedSequence
    overflowError := regs.overflowError || (input.isSome && !regs.inputReady)
    underflowError := regs.underflowError || (regs.started && regs.count == 0)
    sequenceError := regs.sequenceError || (readEnable &&
      (!regs.expectedValid || regs.output.sequence != regs.expectedSequence)) }

structure Inputs (p : Parameters) where
  offer : Nat → Option DataRecord
  outputReady : Nat → Bool
  sequenceMemory : BitVec p.ADDRESS_BITS → BitVec 16
  payloadMemory : BitVec p.ADDRESS_BITS → BitVec 64

def run (inputs : Inputs p) : Nat → Regs p
  | 0 => .reset inputs.sequenceMemory inputs.payloadMemory
  | t + 1 => (run inputs t).step (inputs.offer t) (inputs.outputReady t)

def acceptedAt (inputs : Inputs p) (t : Nat) : List DataRecord :=
  ((run inputs t).written (inputs.offer t)).toList

def deliveredAt (inputs : Inputs p) (t : Nat) : List DataRecord :=
  if (run inputs t).readEnable (inputs.outputReady t) then [(run inputs t).output] else []

def accepted (inputs : Inputs p) (t : Nat) : List DataRecord :=
  (List.range t).flatMap (acceptedAt inputs)

def delivered (inputs : Inputs p) (t : Nat) : List DataRecord :=
  (List.range t).flatMap (deliveredAt inputs)

/-! ## the ring -/

section Ring

variable (regs : Regs p) (input : Option DataRecord) (outputReady : Bool)

def Regs.memory (i : BitVec p.ADDRESS_BITS) : DataRecord :=
  { sequence := regs.sequenceMemory i, payload := regs.payloadMemory i }

def Regs.held : List DataRecord := window regs.memory regs.readPointer regs.count.toNat

/-- The two pointers are as far apart as the buffer holds records. -/
structure Regs.Ring : Prop where
  pointers : regs.writePointer = regs.readPointer + BitVec.ofNat p.ADDRESS_BITS regs.count.toNat
  bounded : regs.count.toNat ≤ p.DEPTH

variable {regs input outputReady}

@[simp] theorem length_held : regs.held.length = regs.count.toNat := length_window

theorem memory_step : (regs.step input outputReady).memory = match regs.written input with
    | some r => store regs.memory regs.writePointer r
    | none => regs.memory := by
  funext i
  simp only [Regs.memory, Regs.step]
  cases regs.written input with
  | none => rfl
  | some r =>
    simp only [store]
    split <;> rfl

theorem readEnable_pos (h : regs.readEnable outputReady = true) :
    regs.started = true ∧ 0 < regs.count.toNat ∧ outputReady = true := by
  simp only [Regs.readEnable, Regs.outputValid, Bool.and_eq_true, bne_iff_ne] at h
  obtain ⟨⟨hs, hc⟩, hr⟩ := h
  refine ⟨hs, Nat.pos_of_ne_zero fun hz => hc ?_, hr⟩
  exact BitVec.eq_of_toNat_eq hz

/-- The record that leaves is the oldest one held. -/
theorem held_of_readEnable (h : regs.readEnable outputReady = true) :
    ∃ rest, regs.held = regs.output :: rest := by
  obtain ⟨c, hc⟩ : ∃ c, regs.count.toNat = c + 1 :=
    Nat.exists_eq_succ_of_ne_zero (readEnable_pos h).2.1.ne'
  rw [Regs.held, hc, window_pop]
  exact ⟨_, rfl⟩

theorem written_room {r : DataRecord} (h : regs.written input = some r) :
    regs.count.toNat < p.DEPTH ∧ input = some r := by
  by_cases hr : regs.inputReady = true
  · rw [Regs.written, if_pos hr] at h
    exact ⟨of_decide_eq_true hr, h⟩
  · rw [Regs.written, if_neg hr] at h
    cases h

theorem count_step (input : Option DataRecord) (outputReady : Bool) (hrn : regs.Ring) :
    (regs.step input outputReady).count.toNat + (if regs.readEnable outputReady then 1 else 0) =
      regs.count.toNat + (regs.written input).toList.length := by
  have hd := p.depth_eq
  have hb := hrn.bounded
  have hwd : (2 : Nat) ^ (p.ADDRESS_BITS + 1) = 2 * p.DEPTH := by
    rw [hd, pow_succ, Nat.mul_comm]
  have hf := p.depth_ok.1
  have ho : 1 % (2 * p.DEPTH) = 1 := Nat.mod_eq_of_lt (by omega)
  cases hw : regs.written input with
  | none =>
    cases hr : regs.readEnable outputReady with
    | false => simp [Regs.step, hw, hr]
    | true =>
      have hp := (readEnable_pos hr).2.1
      have hn : (regs.step input outputReady).count.toNat = regs.count.toNat - 1 := by
        simp only [Regs.step, hw, hr, isSome_none, BitVec.toNat_sub,
          BitVec.ofNat_eq_ofNat, BitVec.toNat_ofNat, hwd, ho]
        rw [show 2 * p.DEPTH - 1 + regs.count.toNat = regs.count.toNat - 1 + 2 * p.DEPTH by omega,
          Nat.add_mod_right, Nat.mod_eq_of_lt (by omega)]
      rw [hn]
      simp only [if_true, toList_none, length_nil]
      omega
  | some r =>
    have hrm := (written_room hw).1
    cases hr : regs.readEnable outputReady with
    | false =>
      have hn : (regs.step input outputReady).count.toNat = regs.count.toNat + 1 := by
        simp only [Regs.step, hw, hr, isSome_some, BitVec.toNat_add,
          BitVec.ofNat_eq_ofNat, BitVec.toNat_ofNat, hwd, ho]
        exact Nat.mod_eq_of_lt (by omega)
      rw [hn]
      simp
    | true => simp [Regs.step, hw, hr]

theorem held_step (hrn : regs.Ring) : (regs.step input outputReady).held =
    (if regs.readEnable outputReady then regs.held.drop 1 else regs.held) ++
      (regs.written input).toList := by
  have hcn := count_step input outputReady hrn
  have hr : (if regs.readEnable outputReady then regs.held.drop 1 else regs.held) =
      window regs.memory (regs.step input outputReady).readPointer
        (regs.count.toNat - if regs.readEnable outputReady then 1 else 0) := by
    cases hr : regs.readEnable outputReady with
    | false => simp [Regs.held, Regs.step, hr]
    | true =>
      obtain ⟨c, hc⟩ : ∃ c, regs.count.toNat = c + 1 :=
        Nat.exists_eq_succ_of_ne_zero (readEnable_pos hr).2.1.ne'
      simp [Regs.held, Regs.step, hr, hc, window_pop]
  rw [hr, Regs.held, memory_step]
  cases hw : regs.written input with
  | none =>
    rw [hw] at hcn
    simp only [toList_none, length_nil, append_nil, Nat.add_zero] at hcn ⊢
    rw [← hcn, Nat.add_sub_cancel]
  | some r =>
    rw [hw] at hcn
    have hrm := (written_room hw).1
    rw [p.depth_eq] at hrm
    simp only [toList_some, length_singleton] at hcn ⊢
    obtain ⟨c, hc⟩ : ∃ c, regs.count.toNat = c + if regs.readEnable outputReady then 1 else 0 := by
      cases hr : regs.readEnable outputReady with
      | false => exact ⟨regs.count.toNat, rfl⟩
      | true =>
        have hp := (readEnable_pos hr).2.1
        exact ⟨regs.count.toNat - 1, by simp only [if_true]; omega⟩
    have hn : (regs.step input outputReady).count.toNat = c + 1 := by omega
    rw [hn, hc, Nat.add_sub_cancel]
    refine window_push ?_ (by omega)
    rw [hrn.pointers, hc]
    cases hr : regs.readEnable outputReady with
    | false => simp [Regs.step, hr]
    | true =>
      simp only [Regs.step, hr, if_true, BitVec.ofNat_add]
      rw [BitVec.add_assoc, BitVec.add_comm (BitVec.ofNat _ c)]
      rfl

theorem read_held : (if regs.readEnable outputReady then [regs.output] else []) =
        (if regs.started && outputReady then regs.held.take 1 else []) ∧
      (if regs.readEnable outputReady then regs.held.drop 1 else regs.held) =
        if regs.started && outputReady then regs.held.drop 1 else regs.held := by
  have he : regs.readEnable outputReady =
      (regs.started && outputReady && regs.count != 0) := by
    rw [Regs.readEnable, Regs.outputValid, Bool.and_right_comm]
  cases hw : regs.started && outputReady with
  | false => simp [he, hw]
  | true =>
    cases hc : regs.count.toNat with
    | zero =>
      have hz : regs.count = 0 := BitVec.eq_of_toNat_eq hc
      simp [he, hw, hz, Regs.held, window]
    | succ c =>
      have hne : regs.count ≠ 0#(p.ADDRESS_BITS + 1) := by
        intro hz
        rw [hz] at hc
        cases hc
      simp [he, hw, hne, Regs.held, hc, window_pop, Regs.output, Regs.memory]

theorem pointers_step (regs : Regs p) (input : Option DataRecord) (outputReady : Bool) :
    (regs.step input outputReady).writePointer =
        regs.writePointer + BitVec.ofNat p.ADDRESS_BITS (regs.written input).toList.length ∧
      (regs.step input outputReady).readPointer = regs.readPointer +
          BitVec.ofNat p.ADDRESS_BITS (if regs.readEnable outputReady then 1 else 0) := by
  constructor
  · cases hw : regs.written input <;> simp [Regs.step, hw]
  · cases hr : regs.readEnable outputReady <;> simp [Regs.step, hr]

theorem ring_step (hr : regs.Ring) : (regs.step input outputReady).Ring := by
  have hc := count_step input outputReady hr
  constructor
  · obtain ⟨hwr, hrd⟩ := pointers_step regs input outputReady
    rw [hwr, hrd, hr.pointers, BitVec.add_assoc, BitVec.add_assoc, ← BitVec.ofNat_add,
      ← BitVec.ofNat_add, ← hc, Nat.add_comm]
  · have hb := hr.bounded
    cases hw : regs.written input with
    | none =>
      rw [hw, toList_none, length_nil] at hc
      omega
    | some r =>
      have hrm := (written_room hw).1
      rw [hw, toList_some, length_singleton] at hc
      omega

end Ring

/-! ## runs -/

section Run

variable {inputs : Inputs p} {t : Nat}

theorem run_succ :
    run inputs (t + 1) = (run inputs t).step (inputs.offer t) (inputs.outputReady t) := rfl

theorem ring_run (t : Nat) : (run inputs t).Ring := by
  induction t with
  | zero => exact ⟨rfl, Nat.zero_le _⟩
  | succ t ih => exact ring_step ih

theorem accepted_succ : accepted inputs (t + 1) = accepted inputs t ++ acceptedAt inputs t := by
  simp [accepted, range_succ]

theorem delivered_succ : delivered inputs (t + 1) = delivered inputs t ++ deliveredAt inputs t := by
  simp [delivered, range_succ]

/-- The bounded queue that the buffer stands for: once the release has started, every cycle with a
ready consumer takes a record. -/
def queueRun (inputs : Inputs p) : Nat → Queue DataRecord p.DEPTH :=
  Queue.run p.DEPTH inputs.offer fun t => (run inputs t).started && inputs.outputReady t

theorem written_held (regs : Regs p) (input : Option DataRecord) :
    (regs.written input).toList = if regs.held.length < p.DEPTH then input.toList else [] := by
  rw [length_held]
  by_cases hr : regs.count.toNat < p.DEPTH <;> simp [Regs.written, Regs.inputReady, hr]

theorem held_run (t : Nat) : (run inputs t).held = (queueRun inputs t).items := by
  induction t with
  | zero => rfl
  | succ t ih =>
    rw [run_succ, held_step (ring_run t), read_held.2, written_held, ih]
    rfl

/-- **The buffer refines the bounded queue**: what it holds, accepts and delivers is what the queue
holds, takes and gives. -/
theorem run_refines (t : Nat) : (run inputs t).held = (queueRun inputs t).items ∧
      acceptedAt inputs t = (queueRun inputs t).pushed (inputs.offer t) ∧
      deliveredAt inputs t =
        (queueRun inputs t).popped ((run inputs t).started && inputs.outputReady t) := by
  refine ⟨held_run t, ?_, ?_⟩
  · rw [acceptedAt, written_held, held_run]
    rfl
  · rw [deliveredAt, read_held.1, held_run]
    rfl

theorem accepted_eq (inputs : Inputs p) (t : Nat) :
    accepted inputs t = delivered inputs t ++ (run inputs t).held := by
  rw [held_run]
  calc accepted inputs t
      = (List.range t).flatMap fun s => (queueRun inputs s).pushed (inputs.offer s) :=
        flatMap_congr fun s _ => (run_refines s).2.1
    _ = _ := Queue.conservation t
    _ = delivered inputs t ++ (queueRun inputs t).items := by
        refine congrArg (· ++ _) ?_
        exact (flatMap_congr fun s _ => (run_refines s).2.2).symm

theorem expected_run (inputs : Inputs p) (t : Nat) :
    (run inputs t).expectedValid = !(accepted inputs t).isEmpty ∧
      ∀ first rest, accepted inputs t = first :: rest → (run inputs t).expectedSequence =
          first.sequence + BitVec.ofNat 16 (delivered inputs t).length := by
  induction t with
  | zero =>
    refine ⟨rfl, fun first rest h => ?_⟩
    cases h
  | succ t ih =>
    obtain ⟨hv, hs⟩ := ih
    have hh := accepted_eq inputs t
    rw [accepted_succ, delivered_succ, acceptedAt, deliveredAt, run_succ]
    cases ha : accepted inputs t with
    | nil =>
      rw [ha] at hv hh
      obtain ⟨hd, hn⟩ := append_eq_nil_iff.mp hh.symm
      have hr : (run inputs t).readEnable (inputs.outputReady t) = false := by
        by_contra hr
        have hp := (readEnable_pos (Bool.not_eq_false _ ▸ hr)).2.1
        rw [← length_held, hn] at hp
        cases hp
      cases hw : (run inputs t).written (inputs.offer t) with
      | none => simp [Regs.step, hw, hr, hv]
      | some r =>
        simp only [Regs.step, hw, hr, hv, hd]
        simp
    | cons first rest =>
      rw [ha] at hv
      have hf := hs first rest ha
      constructor
      · simp [Regs.step, hv]
      · intro first' rest' hc
        rw [cons_append, List.cons.injEq] at hc
        rw [← hc.1, length_append]
        cases hr : (run inputs t).readEnable (inputs.outputReady t) with
        | true =>
          simp only [Regs.step, hr, if_true, hf, length_singleton, BitVec.ofNat_add]
          rw [BitVec.add_assoc]
          rfl
        | false =>
          have hk : ((run inputs t).step (inputs.offer t) (inputs.outputReady t)).expectedSequence =
              (run inputs t).expectedSequence := by
            cases hw : (run inputs t).written (inputs.offer t) <;>
              simp [Regs.step, hw, hr, hv]
          rw [hk, hf]
          simp

/-- The sequence numbers follow each other modulo `2 ^ 16`. -/
def Consecutive (records : List DataRecord) : Prop :=
  ∃ base : BitVec 16, ∀ k r, records[k]? = some r → r.sequence = base + BitVec.ofNat 16 k

theorem Consecutive.of_append {left right : List DataRecord} (h : Consecutive (left ++ right)) :
    Consecutive left := by
  obtain ⟨base, hb⟩ := h
  refine ⟨base, fun k r hr => hb k r ?_⟩
  rw [List.getElem?_append_left (List.getElem?_eq_some_iff.mp hr).1]
  exact hr

theorem sequenceError_run (t : Nat) (h : Consecutive (accepted inputs t)) :
    (run inputs t).sequenceError = false := by
  induction t with
  | zero => rfl
  | succ t ih =>
    rw [accepted_succ] at h
    have hbf := h.of_append
    obtain ⟨base, hb⟩ := hbf
    rw [run_succ]
    simp only [Regs.step, ih h.of_append, Bool.false_or]
    cases hr : (run inputs t).readEnable (inputs.outputReady t) with
    | false => rfl
    | true =>
      have hh := accepted_eq inputs t
      obtain ⟨rest, hrs⟩ := held_of_readEnable hr
      rw [hrs] at hh
      have hhd := hb (delivered inputs t).length (run inputs t).output (by rw [hh]; simp)
      obtain ⟨hv, hs⟩ := expected_run inputs t
      cases ha : accepted inputs t with
      | nil =>
        rw [ha] at hh
        simp at hh
      | cons first others =>
        have hf := hb 0 first (by rw [ha]; rfl)
        rw [BitVec.add_zero] at hf
        rw [hv, ha, hs first others ha, hhd, hf]
        simp

theorem flags_mono {s t : Nat} (hle : s ≤ t) :
    ((run inputs s).overflowError = true → (run inputs t).overflowError = true) ∧
    ((run inputs s).underflowError = true → (run inputs t).underflowError = true) ∧
    ((run inputs s).sequenceError = true → (run inputs t).sequenceError = true) := by
  induction t, hle using Nat.le_induction with
  | base => exact ⟨id, id, id⟩
  | succ t _ ih =>
    obtain ⟨ho, hu, hs⟩ := ih
    rw [run_succ]
    refine ⟨fun h => ?_, fun h => ?_, fun h => ?_⟩
    · simp only [Regs.step, ho h, Bool.true_or]
    · simp only [Regs.step, hu h, Bool.true_or]
    · simp only [Regs.step, hs h, Bool.true_or]

/-! ## arrivals on a cadence -/

/-- Record `k` is accepted at its nominal cycle `base + k` or at most `slack` cycles later. -/
def OnCadence (inputs : Inputs p) (base slack : Nat) : Prop :=
  ∀ k, ∃ c, base + k ≤ c ∧ c ≤ base + k + slack ∧
    (accepted inputs c).length = k ∧ acceptedAt inputs c ≠ []

theorem length_accepted_mono (inputs : Inputs p) {s t : Nat} (hle : s ≤ t) :
    (accepted inputs s).length ≤ (accepted inputs t).length := by
  induction t, hle using Nat.le_induction with
  | base => exact le_rfl
  | succ t _ ih =>
    rw [accepted_succ, length_append]
    omega

theorem length_accepted_lt {s t : Nat} (hlt : s < t) (h : acceptedAt inputs s ≠ []) :
    (accepted inputs s).length < (accepted inputs t).length := by
  have hp := length_pos_of_ne_nil h
  have hm := length_accepted_mono inputs (Nat.succ_le_of_lt hlt)
  rw [Nat.succ_eq_add_one, accepted_succ, length_append] at hm
  omega

theorem OnCadence.length_accepted_le {base slack k : Nat} (h : OnCadence inputs base slack)
    (hk : k < (accepted inputs t).length) : base + k < t := by
  obtain ⟨c, he, -, hl, -⟩ := h k
  by_contra hlt
  have hm := length_accepted_mono inputs (show t ≤ c by omega)
  omega

theorem delivered_behind {base slack : Nat} (h : OnCadence inputs base slack) (t : Nat) :
    if (run inputs t).started then
      (delivered inputs t).length + base + p.START_THRESHOLD ≤ t
    else (delivered inputs t).length = 0 := by
  induction t with
  | zero => rfl
  | succ t ih =>
    have hl : (deliveredAt inputs t).length ≤ 1 := by
      rw [deliveredAt]
      split <;> simp
    rw [delivered_succ, length_append]
    cases hs : (run inputs t).started with
    | true =>
      have hn : (run inputs (t + 1)).started = true := by
        rw [run_succ]
        simp only [Regs.step, hs, Bool.true_or]
      rw [hs, if_pos rfl] at ih
      rw [hn, if_pos rfl]
      omega
    | false =>
      rw [hs, if_neg Bool.false_ne_true] at ih
      have hnn : deliveredAt inputs t = [] := by
        rw [deliveredAt, if_neg]
        intro hr
        rw [(readEnable_pos hr).1] at hs
        cases hs
      rw [hnn, length_nil, ih]
      by_cases hn : (run inputs (t + 1)).started = true
      · -- the prefill is complete with this edge
        have hh := congrArg List.length (accepted_eq inputs t)
        rw [length_append, ih, length_held] at hh
        have hf : p.START_THRESHOLD ≤ (accepted inputs (t + 1)).length := by
          rw [accepted_succ, length_append, hh, acceptedAt]
          rw [run_succ] at hn
          simp only [Regs.step, hs, Bool.false_or, decide_eq_true_eq] at hn
          cases hw : (run inputs t).written (inputs.offer t) <;> rw [hw] at hn <;>
            simpa using hn
        have ht := p.threshold_ok.1
        have hc := h.length_accepted_le (t := t + 1) (k := p.START_THRESHOLD - 1) (by omega)
        rw [if_pos hn]
        omega
      · rw [if_neg hn]

theorem underflowError_run {base slack : Nat} (hsl : slack < p.START_THRESHOLD)
    (h : OnCadence inputs base slack) (t : Nat) : (run inputs t).underflowError = false := by
  induction t with
  | zero => rfl
  | succ t ih =>
    rw [run_succ]
    simp only [Regs.step, ih, Bool.false_or]
    rw [Bool.and_eq_false_imp]
    intro hs
    rw [beq_eq_false_iff_ne]
    intro he
    have hh := congrArg List.length (accepted_eq inputs t)
    rw [length_append, length_held, he] at hh
    have hb := delivered_behind h t
    rw [hs, if_pos rfl] at hb
    -- the next record is due, so it has been accepted
    obtain ⟨c, -, hlt, hl, ha⟩ := h (accepted inputs t).length
    simp only [BitVec.ofNat_eq_ofNat, BitVec.toNat_ofNat, Nat.zero_mod, Nat.add_zero] at hh
    have hm := length_accepted_lt (show c < t by omega) ha
    omega

/--
**The de-jitter buffer as a bounded queue.**

The buffer accepts, holds and delivers what the bounded queue takes, holds and gives; the accepted
records are the delivered ones and those held, in order. The count is the distance of the pointers
modulo `DEPTH`, consecutive sequence numbers raise no sequence error, and the flags are sticky. With
arrivals that are late by less than the start threshold no underflow is flagged.
-/
theorem dejitter_run (inputs : Inputs p) : (∀ t, (run inputs t).held = (queueRun inputs t).items ∧
      acceptedAt inputs t = (queueRun inputs t).pushed (inputs.offer t) ∧
      deliveredAt inputs t =
        (queueRun inputs t).popped ((run inputs t).started && inputs.outputReady t)) ∧
    (∀ t, accepted inputs t = delivered inputs t ++ (run inputs t).held ∧
      (run inputs t).held.length = (run inputs t).count.toNat) ∧
    (∀ t, BitVec.ofNat p.ADDRESS_BITS (run inputs t).count.toNat =
      (run inputs t).writePointer - (run inputs t).readPointer) ∧
    (∀ t, Consecutive (accepted inputs t) → (run inputs t).sequenceError = false) ∧
    (∀ s t, s ≤ t → ((run inputs s).overflowError = true → (run inputs t).overflowError = true) ∧
      ((run inputs s).underflowError = true → (run inputs t).underflowError = true) ∧
      ((run inputs s).sequenceError = true → (run inputs t).sequenceError = true)) ∧
    (∀ base slack, slack < p.START_THRESHOLD → OnCadence inputs base slack →
      ∀ t, (run inputs t).underflowError = false) := by
  refine ⟨run_refines, fun t => ⟨accepted_eq inputs t, length_held⟩, fun t => ?_, sequenceError_run,
    fun s t => flags_mono, fun base slack => underflowError_run⟩
  rw [(ring_run t).pointers, BitVec.add_comm, BitVec.add_sub_cancel]

/-- A flag that a cycle can raise and nothing clears. -/
theorem sticky_iff {flag raised : Nat → Bool} (hz : flag 0 = false)
    (hsc : ∀ t, flag (t + 1) = (flag t || raised t)) (t : Nat) :
    flag t = true ↔ ∃ s < t, raised s = true := by
  induction t with
  | zero => simp [hz]
  | succ t ih =>
    rw [hsc, Bool.or_eq_true, ih]
    constructor
    · rintro (⟨s, hs, h⟩ | h)
      · exact ⟨s, by omega, h⟩
      · exact ⟨t, by omega, h⟩
    · rintro ⟨s, hs, h⟩
      rcases Nat.lt_succ_iff_lt_or_eq.mp hs with hs | rfl
      · exact Or.inl ⟨s, hs, h⟩
      · exact Or.inr h

theorem consecutive_concat {l rest : List DataRecord} {first r : DataRecord}
    (hf : l ++ [r] = first :: rest) : Consecutive (l ++ [r]) ↔
      Consecutive l ∧ r.sequence = first.sequence + BitVec.ofNat 16 l.length := by
  constructor
  · intro h
    refine ⟨h.of_append, ?_⟩
    obtain ⟨base, hb⟩ := h
    have hl := hb l.length r (by simp)
    have hh := hb 0 first (by rw [hf]; rfl)
    rw [BitVec.add_zero] at hh
    rw [hl, hh]
  · rintro ⟨⟨base, hb⟩, hr⟩
    refine ⟨first.sequence, fun k s hs => ?_⟩
    rcases Nat.lt_or_ge k l.length with hk | hk
    · have hf' : (l ++ [r])[0]? = some first := by
        rw [hf]
        rfl
      rw [List.getElem?_append_left (by omega)] at hf'
      rw [List.getElem?_append_left hk] at hs
      have hz := hb 0 first hf'
      rw [BitVec.add_zero] at hz
      rw [hb k s hs, hz]
    · rw [List.getElem?_append_right hk] at hs
      obtain ⟨hk', rfl⟩ : k - l.length = 0 ∧ r = s := by
        cases hi : k - l.length with
        | zero => rw [hi] at hs; exact ⟨rfl, some.inj hs⟩
        | succ i => rw [hi] at hs; cases hs
      rw [hr, show k = l.length by omega]

theorem sequenceError_iff (t : Nat) :
    (run inputs t).sequenceError = true ↔ ¬ Consecutive (delivered inputs t) := by
  induction t with
  | zero => exact ⟨fun h => absurd h Bool.false_ne_true, fun h => absurd ⟨0, by simp [delivered]⟩ h⟩
  | succ t ih =>
    rw [delivered_succ, deliveredAt, run_succ]
    simp only [Regs.step]
    cases hr : (run inputs t).readEnable (inputs.outputReady t) with
    | false => simpa using ih
    | true =>
      obtain ⟨rest, hrs⟩ := held_of_readEnable hr
      have hh := accepted_eq inputs t
      obtain ⟨hv, hs⟩ := expected_run inputs t
      obtain ⟨first, others, hf⟩ :
          ∃ first others, delivered inputs t ++ [(run inputs t).output] = first :: others :=
        exists_cons_of_ne_nil (by simp)
      have ha : accepted inputs t = first :: (others ++ rest) := by
        rw [hh, hrs, ← cons_append, ← hf, append_assoc]
        rfl
      rw [if_pos rfl, consecutive_concat hf, not_and_or, ← ih, hv, ha,
        hs _ _ ha]
      simp

/-- **The flags tell what happened.** The overflow flag is up when and only when a record was
refused by a full buffer, the underflow flag when and only when the buffer ran empty after the
start, and the sequence flag when and only when the delivered sequence numbers do not follow each
other. -/
theorem flags_iff (inputs : Inputs p) (t : Nat) :
    ((run inputs t).overflowError = true ↔
      ∃ s < t, (inputs.offer s).isSome = true ∧ (run inputs s).held.length = p.DEPTH) ∧
    ((run inputs t).underflowError = true ↔
      ∃ s < t, (run inputs s).started = true ∧ (run inputs s).held = []) ∧
    ((run inputs t).sequenceError = true ↔ ¬ Consecutive (delivered inputs t)) := by
  refine ⟨?_, ?_, sequenceError_iff t⟩
  · rw [@sticky_iff (fun t => (run inputs t).overflowError) _ rfl (fun _ => rfl)]
    refine exists_congr fun s => and_congr_right fun _ => ?_
    have hle := (@ring_run p inputs s).bounded
    rw [Bool.and_eq_true, Bool.not_eq_true', Regs.inputReady, decide_eq_false_iff_not, length_held]
    exact and_congr_right fun _ => by omega
  · rw [@sticky_iff (fun t => (run inputs t).underflowError) _ rfl (fun _ => rfl)]
    refine exists_congr fun s => and_congr_right fun _ => ?_
    rw [Bool.and_eq_true, beq_iff_eq, ← length_eq_zero_iff, length_held]
    exact and_congr_right fun _ => ⟨fun h => by rw [h]; rfl, fun h => BitVec.eq_of_toNat_eq h⟩

theorem sequence_of_consecutive {r s : DataRecord} {l : List DataRecord} {k : Nat}
    (h : Consecutive (r :: l)) (hs : l[k]? = some s) :
    s.sequence = r.sequence + BitVec.ofNat 16 (k + 1) := by
  obtain ⟨base, hb⟩ := h
  rw [hb (k + 1) s hs, hb 0 r rfl, BitVec.add_zero]

theorem Consecutive.tail {r : DataRecord} {l : List DataRecord} (h : Consecutive (r :: l)) :
    Consecutive l := by
  refine ⟨r.sequence + 1, fun k s hs => ?_⟩
  rw [sequence_of_consecutive h hs, Nat.add_comm, BitVec.ofNat_add, BitVec.add_assoc]
  rfl

/-- Behind a record the two go on alike: a record left out would repeat a number too early. -/
theorem prefix_of_consecutive : ∀ {l s : List DataRecord} {r : DataRecord}, l <+ s →
    Consecutive (r :: l) → Consecutive (r :: s) → s.length < 2 ^ 16 → l <+: s
  | [], _, _, _, _, _, _ => nil_prefix
  | a :: l, b :: s, r, hsb, hl, hs, hln => by
    rw [length_cons] at hln
    cases hsb with
    | cons_cons _ hsb =>
      exact cons_prefix_cons.mpr
        ⟨rfl, prefix_of_consecutive hsb hl.tail hs.tail (by omega)⟩
    | cons _ hsb =>
      obtain ⟨j, hj⟩ := mem_iff_getElem?.mp (hsb.subset mem_cons_self)
      have hlt := (List.getElem?_eq_some_iff.mp hj).1
      have hf := sequence_of_consecutive hl (show (a :: l)[0]? = some a from rfl)
      have hlr := sequence_of_consecutive hs (show (b :: s)[j + 1]? = some a from hj)
      have heq := (BitVec.add_right_inj r.sequence).mp (hf.symm.trans hlr)
      have hn := congrArg BitVec.toNat heq
      simp only [BitVec.toNat_ofNat] at hn
      omega

theorem infix_of_consecutive {l s : List DataRecord} (hsb : l <+ s) (hl : Consecutive l)
    (hs : Consecutive s) (hln : s.length ≤ 2 ^ 16) : l <:+: s := by
  induction hsb with
  | slnil => exact infix_rfl
  | cons r hsb ih =>
    exact infix_cons (ih hl hs.tail (by rw [length_cons] at hln; omega))
  | cons_cons r hsb _ =>
    rw [length_cons] at hln
    exact (cons_prefix_cons.mpr ⟨rfl, prefix_of_consecutive hsb hl hs (by omega)⟩).isInfix

/-- **No gap goes unnoticed**: of a stream of at most `2 ^ 16` records with consecutive numbers some
may be lost on the way to the buffer or refused by it. While the sequence flag is down, the records
delivered are neighbours in the stream. -/
theorem delivered_infix (inputs : Inputs p) (t : Nat) {sent : List DataRecord}
    (hsent : Consecutive sent) (hlength : sent.length ≤ 2 ^ 16) (hsub : accepted inputs t <+ sent)
    (hflag : (run inputs t).sequenceError = false) : delivered inputs t <:+: sent := by
  have hdelivered : Consecutive (delivered inputs t) := by
    by_contra hgap
    rw [(sequenceError_iff t).mpr hgap] at hflag
    cases hflag
  refine infix_of_consecutive (Sublist.trans ?_ hsub) hdelivered hsent hlength
  rw [accepted_eq]
  exact sublist_append_left _ _

end Run

/-! ## a cadence that is late by the whole threshold -/

def fourDeep : Parameters :=
  { DEPTH := 4, START_THRESHOLD := 2, depth_ok := by decide, threshold_ok := by decide }

/-- Two records on their nominal cycles, and all others `delay` cycles later. -/
def lateBy (delay : Nat) : Inputs fourDeep :=
  { offer := fun t => if t < 2 then some ⟨BitVec.ofNat 16 t, 0⟩ else
      if t < 2 + delay then none else some ⟨BitVec.ofNat 16 (t - delay), 0⟩
    outputReady := fun _ => true
    sequenceMemory := fun _ => 0
    payloadMemory := fun _ => 0 }

/-- One record is held, and all but `delay` cycles have accepted one. -/
def Steady (delay t : Nat) : Prop :=
  (run (lateBy delay) t).count = 1 ∧ (run (lateBy delay) t).started = true ∧
    (accepted (lateBy delay) t).length + delay = t

variable {delay t : Nat}

theorem Steady.written (h : Steady delay t) (ht : 2 + delay ≤ t) :
    (run (lateBy delay) t).written ((lateBy delay).offer t) =
      some ⟨BitVec.ofNat 16 (t - delay), 0⟩ := by
  have hr : (run (lateBy delay) t).inputReady = true := by
    rw [Regs.inputReady, h.1]
    decide
  rw [Regs.written, if_pos hr]
  simp only [lateBy]
  rw [if_neg (by omega), if_neg (by omega)]

theorem Steady.succ (h : Steady delay t) (ht : 2 + delay ≤ t) : Steady delay (t + 1) := by
  have hw := h.written ht
  obtain ⟨hc, hs, hl⟩ := h
  have hr : (run (lateBy delay) t).readEnable ((lateBy delay).outputReady t) = true := by
    rw [Regs.readEnable, Regs.outputValid, hs, hc]
    rfl
  refine ⟨?_, ?_, ?_⟩
  · rw [run_succ]
    simp only [Regs.step, hw, hr, isSome_some, hc]
  · rw [run_succ]
    simp only [Regs.step, hs, Bool.true_or]
  · rw [accepted_succ, length_append, acceptedAt, hw, toList_some, length_singleton]
    omega

theorem steady_run (hd : delay = 1 ∨ delay = 2) (ht : 5 ≤ t) : Steady delay t := by
  induction t, ht using Nat.le_induction with
  | base =>
    unfold Steady
    rcases hd with rfl | rfl <;> decide +kernel
  | succ t ht ih => exact ih.succ (by omega)

theorem lateBy_onCadence (hd : delay = 1 ∨ delay = 2) : OnCadence (lateBy delay) 0 delay := by
  intro k
  by_cases hk : k < 4
  · have hf : ∀ delay ∈ [1, 2], ∀ k < 4, ∃ c < 10, 0 + k ≤ c ∧ c ≤ 0 + k + delay ∧
        (accepted (lateBy delay) c).length = k ∧ acceptedAt (lateBy delay) c ≠ [] := by
      decide +kernel
    obtain ⟨c, -, hc⟩ := hf delay (by simpa using hd) k hk
    exact ⟨c, hc⟩
  · have hs := steady_run hd (show 5 ≤ k + delay by omega)
    refine ⟨k + delay, by omega, by omega, ?_, ?_⟩
    · have hl := hs.2.2
      omega
    · rw [acceptedAt, hs.written (by omega)]
      exact cons_ne_nil _ _

/-- The first two records are lost. -/
theorem delivered_infix_lateBy : delivered (lateBy 1) 6 <:+:
    (List.range 8).map fun k => ⟨BitVec.ofNat 16 (k + 65534), 0⟩ := by
  refine delivered_infix (lateBy 1) 6 ⟨65534, fun k r h => ?_⟩ (by decide) ?_ (by decide +kernel)
  · obtain ⟨i, hi, rfl⟩ := map_eq_some_iff.mp (List.getElem?_map ▸ h)
    obtain ⟨-, rfl⟩ := List.getElem?_eq_some_iff.mp hi
    rw [getElem_range, Nat.add_comm, BitVec.ofNat_add]
    rfl
  · exact (show [2, 3, 4, 5, 6] <+ List.range 8 by decide).map
      fun k => (⟨BitVec.ofNat 16 (k + 65534), 0⟩ : DataRecord)

/-- Arrivals that are late by one cycle do not run the buffer empty. -/
theorem dejitter_run_lateByOne : ∀ t, (run (lateBy 1) t).underflowError = false :=
  (dejitter_run (lateBy 1)).2.2.2.2.2 0 1 (by decide) (lateBy_onCadence (Or.inl rfl))

/-- Arrivals that are late by the whole threshold do. -/
theorem lateBy_threshold_underflow : OnCadence (lateBy 2) 0 fourDeep.START_THRESHOLD ∧
      (run (lateBy 2) 5).underflowError = true :=
  ⟨lateBy_onCadence (Or.inr rfl), by decide +kernel⟩

end EmuFlow.Pcs.Dejitter
