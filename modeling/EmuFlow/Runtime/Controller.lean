import EmuFlow.Runtime
import Mathlib.Data.Nat.Size

/-!
# The virtual runtime controller

The frame controller that `virtual_runtime_controller_to_systemverilog` of `emuflow/runtime.py`
emits for a virtual runtime: the slot counter, the startup latch and the index into the event
calendar.
-/

namespace EmuFlow.Runtime

open Check SortedSet Routing Tdm TdmRatio List

/-! ## the calendar -/

section Calendar

variable {clockPeriods : Option (List (String × ℚ))} {framePeriodNs : ℚ} {contract : ClockContract}

variable {init : Nat} {l : List Nat}

theorem foldl_lcm_dvd : init ∣ l.foldl Nat.lcm init ∧ ∀ n ∈ l, n ∣ l.foldl Nat.lcm init := by
  induction l generalizing init with
  | nil => simp
  | cons m l ih =>
    obtain ⟨hi, ha⟩ := @ih (init.lcm m)
    rw [foldl_cons]
    refine ⟨(Nat.dvd_lcm_left init m).trans hi, ?_⟩
    intro n hn
    rcases mem_cons.mp hn with rfl | hn
    · exact (Nat.dvd_lcm_right init n).trans hi
    · exact ha n hn

theorem foldl_lcm_pos (hi : 0 < init) (h : ∀ n ∈ l, 0 < n) : 0 < l.foldl Nat.lcm init := by
  induction l generalizing init with
  | nil => exact hi
  | cons m l ih =>
    rw [foldl_cons]
    exact ih (Nat.lcm_pos hi (h m mem_cons_self)) fun n hn => h n (mem_cons_of_mem m hn)

theorem foldl_gcd_dvd : l.foldl Nat.gcd init ∣ init ∧ ∀ n ∈ l, l.foldl Nat.gcd init ∣ n := by
  induction l generalizing init with
  | nil => simp
  | cons m l ih =>
    obtain ⟨hi, ha⟩ := @ih (init.gcd m)
    rw [foldl_cons]
    refine ⟨hi.trans (Nat.gcd_dvd_left init m), ?_⟩
    intro n hn
    rcases mem_cons.mp hn with rfl | hn
    · exact hi.trans (Nat.gcd_dvd_right init n)
    · exact ha n hn

/-- The calendar of a contract: a table of `calendarTicks` ticks, a multiple of every period. -/
structure Calendar (contract : ClockContract) (periodTicks : List (String × Nat)) : Prop where
  clocks_eq : contract.clocks.map (fun c => (c.clock, c.periodTicks)) = periodTicks
  clocks_nodup : (periodTicks.map Prod.fst).Nodup
  ticks_pos : ∀ item ∈ periodTicks, 0 < item.2
  ticks_dvd : ∀ item ∈ periodTicks, item.2 ∣ contract.calendarTicks
  calendar_pos : 0 < contract.calendarTicks
  ticks_exact : ∀ c ∈ contract.clocks,
    (c.periodTicks : ℚ) * contract.timebasePeriodNs = c.targetPeriodNs
  events_eq : contract.events = (range' 1 contract.calendarTicks).map fun tick =>
    { offsetTicks := tick
      clocks := (periodTicks.filter fun item => tick % item.2 = 0).map Prod.fst }

theorem periodUnits_eq {period : ℚ} (hp : 0 < period) {denominator : Nat}
    (hd : period.den ∣ denominator) :
    ((period * (denominator : ℚ)).num.toNat : ℚ) = period * denominator := by
  obtain ⟨k, rfl⟩ := hd
  have hi : period * ((period.den * k : Nat) : ℚ) = ((period.num * k : Int) : ℚ) := by
    push_cast
    rw [← mul_assoc, Rat.mul_den_eq_num]
  have hn : 0 ≤ period.num * (k : Int) :=
    mul_nonneg (Rat.num_pos.mpr hp).le (Int.natCast_nonneg k)
  rw [hi, Rat.num_intCast]
  exact_mod_cast congrArg (Int.cast : Int → ℚ) (Int.toNat_of_nonneg hn)

theorem buildVirtualClockContract_eq_ok
    (hky : ((clockPeriodsOrDefault clockPeriods).map Prod.fst).Nodup)
    (h : buildVirtualClockContract clockPeriods framePeriodNs = .ok contract) :
    ∃ periodTicks, Calendar contract periodTicks := by
  unfold buildVirtualClockContract at h
  rw [raiseIf_bind] at h
  obtain ⟨hvd, h⟩ := h
  rw [raiseIf_bind] at h
  obtain ⟨-, h⟩ := h
  obtain ⟨fastest, -, h⟩ := bind_eq_ok.mp h
  set normalized := sortedBy Prod.fst (clockPeriodsOrDefault clockPeriods) with hnr
  set denominator := (normalized.map fun item => item.2.den).foldl Nat.lcm 1 with hdn
  set periodUnits := normalized.map fun item => (item.1, (item.2 * (denominator : ℚ)).num.toNat)
    with hut
  set quantumUnits := (periodUnits.map Prod.snd).foldl Nat.gcd 0 with hqn
  set periodTicks := periodUnits.map fun item => (item.1, item.2 / quantumUnits) with htc
  have hdv : ∀ item ∈ normalized, item.2.den ∣ denominator := fun item hit =>
    foldl_lcm_dvd.2 _ (mem_map.mpr ⟨item, hit, rfl⟩)
  have hps : 0 < denominator := foldl_lcm_pos one_pos fun n hn => by
    obtain ⟨item, -, rfl⟩ := mem_map.mp hn
    exact item.2.den_pos
  have hvl : ∀ item ∈ normalized, 0 < item.2 := fun item hit =>
    not_le.mp fun hle => hvd ⟨item, hit, Or.inr hle⟩
  have hun : ∀ item ∈ periodUnits, 0 < item.2 := by
    intro item hit
    obtain ⟨period, hpr, rfl⟩ := mem_map.mp hit
    have heq := periodUnits_eq (hvl period hpr) (hdv period hpr)
    have hml : 0 < period.2 * (denominator : ℚ) :=
      mul_pos (hvl period hpr) (by exact_mod_cast hps)
    rw [← heq] at hml
    exact_mod_cast hml
  have htk : ∀ item ∈ periodTicks, 0 < item.2 := by
    intro item hit
    obtain ⟨units, hu, rfl⟩ := mem_map.mp hit
    have hq : quantumUnits ∣ units.2 := foldl_gcd_dvd.2 _ (mem_map_of_mem hu)
    exact Nat.div_pos (Nat.le_of_dvd (hun units hu) hq)
      (Nat.pos_of_dvd_of_pos hq (hun units hu))
  have hex : ∀ item ∈ normalized,
      ((((item.2 * (denominator : ℚ)).num.toNat / quantumUnits : Nat) : ℚ) *
        ((quantumUnits : ℚ) / denominator)) = item.2 := by
    intro item hit
    have hmm : (item.1, (item.2 * (denominator : ℚ)).num.toNat) ∈ periodUnits :=
      mem_map_of_mem hit
    have hq : quantumUnits ∣ (item.2 * (denominator : ℚ)).num.toNat :=
      foldl_gcd_dvd.2 _ (mem_map_of_mem hmm)
    have hq₀ : (quantumUnits : ℚ) ≠ 0 := by
      exact_mod_cast (Nat.pos_of_dvd_of_pos hq (hun _ hmm)).ne'
    have hd₀ : (denominator : ℚ) ≠ 0 := by exact_mod_cast hps.ne'
    rw [Nat.cast_div hq hq₀, periodUnits_eq (hvl item hit) (hdv item hit)]
    field_simp
  have hnm : periodTicks.map Prod.fst = normalized.map Prod.fst := by
    rw [htc, hut, map_map, map_map]
    rfl
  injection h with h
  subst h
  refine ⟨periodTicks, ?_, ?_, htk, ?_, ?_, ?_, rfl⟩
  · have hln : normalized.length = periodTicks.length := by simp [htc, hut]
    rw [map_map]
    refine ext_getElem (by simp [hln]) fun i h₁ h₂ => ?_
    simp [htc, hut]
  · rw [hnm]
    exact ((sortedBy_perm _ _).map Prod.fst).nodup_iff.mpr hky
  · exact fun item hit => foldl_lcm_dvd.2 _ (mem_map_of_mem hit)
  · refine foldl_lcm_pos one_pos fun n hn => ?_
    obtain ⟨item, hit, rfl⟩ := mem_map.mp hn
    exact htk item hit
  · intro c hc
    obtain ⟨item, hit, rfl⟩ := mem_map.mp hc
    rw [htc, hut, map_map, ← map_prod_left_eq_zip] at hit
    obtain ⟨period, hpr, rfl⟩ := mem_map.mp hit
    exact hex period hpr

end Calendar

/-! ## the registers -/

structure ControllerParams where
  frameSlots : Nat
  slotBits : Nat
  clockCount : Nat
  eventBits : Nat
  masks : List Nat

def eventMask (clockOrder : List String) (event : ClockEvent) : Nat :=
  event.clocks.foldl (fun mask clock => mask ||| 1 <<< clockOrder.idxOf clock) 0

def clockOrder (contract : ClockContract) : List String :=
  sorted (contract.clocks.map VirtualClock.clock)

/-- `max(1, count.bit_length())`. -/
def indexBits (count : Nat) : Nat := max 1 count.size

def controllerParams (runtime : VirtualRuntime) : ControllerParams :=
  { frameSlots := runtime.slots
    slotBits := indexBits (runtime.slots - 1)
    clockCount := (clockOrder runtime.contract).length
    eventBits := indexBits (runtime.contract.events.length - 1)
    masks := runtime.contract.events.map (eventMask (clockOrder runtime.contract)) }

structure ControllerRegs (p : ControllerParams) where
  slot : BitVec p.slotBits
  started : Bool
  eventIndex : BitVec p.eventBits

variable {p : ControllerParams}

def ControllerRegs.reset : ControllerRegs p := { slot := 0, started := false, eventIndex := 0 }

/-- `slot == FRAME_SLOTS - 1`. -/
def ControllerRegs.lastSlot (regs : ControllerRegs p) : Bool := regs.slot.toNat + 1 == p.frameSlots

/-- `virtual_clock_enable`, with `reset` low. -/
def virtualClockEnable (regs : ControllerRegs p) (linksReady : Bool) : BitVec p.clockCount :=
  if regs.started && linksReady && regs.lastSlot then
    BitVec.ofNat p.clockCount ((p.masks[regs.eventIndex.toNat]?).getD 0)
  else 0

/-- One rising clock edge with `reset` low. -/
def ControllerRegs.step (regs : ControllerRegs p) (linksReady : Bool) : ControllerRegs p :=
  if !regs.started then
    { regs with slot := 0, started := linksReady }
  else if regs.lastSlot then
    if linksReady then
      { regs with
        slot := 0
        eventIndex :=
          if regs.eventIndex.toNat + 1 == p.masks.length then 0 else regs.eventIndex + 1 }
    else regs
  else { regs with slot := regs.slot + 1 }

/-! ## runs -/

def controllerRun (p : ControllerParams) (linksReady : Nat → Bool) : Nat → ControllerRegs p
  | 0 => .reset
  | t + 1 => (controllerRun p linksReady t).step (linksReady t)

/-- A frame completes in cycle `t`. -/
def frameCompletes (p : ControllerParams) (linksReady : Nat → Bool) (t : Nat) : Bool :=
  (controllerRun p linksReady t).started && linksReady t && (controllerRun p linksReady t).lastSlot

/-- Clock `index` is enabled in cycle `t`. -/
def clockPulse (p : ControllerParams) (linksReady : Nat → Bool) (index t : Nat) : Bool :=
  (virtualClockEnable (controllerRun p linksReady t) (linksReady t)).getLsbD index

/-- The frames completed before cycle `t`. -/
def completedFrames (p : ControllerParams) (linksReady : Nat → Bool) (t : Nat) : Nat :=
  (List.range t).countP (frameCompletes p linksReady)

/-- The enable pulses of a clock before cycle `t`. -/
def clockPulses (p : ControllerParams) (linksReady : Nat → Bool) (index t : Nat) : Nat :=
  (List.range t).countP (clockPulse p linksReady index)

variable {linksReady : Nat → Bool} {t : Nat}

theorem completedFrames_succ : completedFrames p linksReady (t + 1) =
    completedFrames p linksReady t + (frameCompletes p linksReady t).toNat := by
  rw [completedFrames, range_succ, countP_append, completedFrames]
  cases h : frameCompletes p linksReady t <;> simp [h]

variable {index : Nat}

theorem clockPulses_succ : clockPulses p linksReady index (t + 1) =
    clockPulses p linksReady index t + (clockPulse p linksReady index t).toNat := by
  rw [clockPulses, range_succ, countP_append, clockPulses]
  cases h : clockPulse p linksReady index t <;> simp [h]

theorem clockPulse_eq : clockPulse p linksReady index t = (frameCompletes p linksReady t &&
      (BitVec.ofNat p.clockCount
        ((p.masks[(controllerRun p linksReady t).eventIndex.toNat]?).getD 0)).getLsbD index) := by
  unfold clockPulse virtualClockEnable frameCompletes
  split
  · next h => rw [h, Bool.true_and]
  · next h => rw [Bool.eq_false_iff.mpr h, Bool.false_and]; exact BitVec.getLsbD_zero

structure ControllerFits (p : ControllerParams) : Prop where
  frame_two : 2 ≤ p.frameSlots
  slot_fits : p.frameSlots ≤ 2 ^ p.slotBits
  event_fits : p.masks.length ≤ 2 ^ p.eventBits
  events_pos : 0 < p.masks.length

/-- The event index counts the completed frames around the calendar. -/
structure ControllerInv (p : ControllerParams) (frames : Nat) (regs : ControllerRegs p) : Prop where
  slot_lt : regs.slot.toNat < p.frameSlots
  event_eq : regs.eventIndex.toNat = frames % p.masks.length
  idle : regs.started = false → regs.slot = 0

theorem toNat_add_one {w : Nat} {x : BitVec w} (h : x.toNat + 1 < 2 ^ w) :
    (x + 1).toNat = x.toNat + 1 := by
  show (x + 1#w).toNat = x.toNat + 1
  rw [BitVec.toNat_add, BitVec.toNat_ofNat, Nat.add_mod_mod]
  exact Nat.mod_eq_of_lt h

theorem toNat_zero {w : Nat} : (0 : BitVec w).toNat = 0 := BitVec.toNat_zero

theorem succ_mod {n m : Nat} (hm : 0 < m) :
    (n + 1) % m = if n % m + 1 = m then 0 else n % m + 1 := by
  have hlt := Nat.mod_lt n hm
  have hd := Nat.div_add_mod n m
  split
  · next h =>
    have : n + 1 = m * (n / m + 1) := by rw [Nat.mul_add, Nat.mul_one]; omega
    rw [this, Nat.mul_mod_right]
  · next h =>
    have : n + 1 = (n % m + 1) + m * (n / m) := by omega
    rw [this, Nat.add_mul_mod_self_left]
    exact Nat.mod_eq_of_lt (by omega)

theorem ControllerInv.step (hp : ControllerFits p) {frames : Nat} {regs : ControllerRegs p}
    (h : ControllerInv p frames regs) (linksReady : Bool) :
    ControllerInv p (frames + (regs.started && linksReady && regs.lastSlot).toNat)
      (regs.step linksReady) := by
  obtain ⟨hsl, he, hi⟩ := h
  have hf := hp.frame_two
  have hz : (0 : BitVec p.slotBits).toNat < p.frameSlots := by
    rw [toNat_zero]
    omega
  unfold ControllerRegs.step
  cases hst : regs.started with
  | false => exact ⟨hz, by simpa using he, fun _ => rfl⟩
  | true =>
    cases hl : regs.lastSlot with
    | false =>
      refine ⟨?_, by simpa using he, fun hs => ?_⟩
      · have hne : regs.slot.toNat + 1 ≠ p.frameSlots := by simpa [ControllerRegs.lastSlot] using hl
        have hft := hp.slot_fits
        have ho : (regs.slot + 1).toNat = regs.slot.toNat + 1 := toNat_add_one (by omega)
        show (regs.slot + 1).toNat < p.frameSlots
        omega
      · exact absurd hs (by simp)
    | true =>
      cases linksReady with
      | false => exact ⟨hsl, by simpa using he, fun hs => absurd hs (by simp [hst])⟩
      | true =>
        refine ⟨hz, ?_, fun _ => rfl⟩
        have hft := hp.event_fits
        have hlt := Nat.mod_lt frames hp.events_pos
        simp only [Bool.not_true, Bool.false_eq_true, if_false, if_true, Bool.and_self,
          Bool.toNat_true, beq_iff_eq]
        rw [succ_mod hp.events_pos, he]
        split
        · exact toNat_zero
        · rw [toNat_add_one (by omega), he]

variable (linksReady) in
theorem controllerRun_inv (hp : ControllerFits p) : ∀ t : Nat,
    ControllerInv p (completedFrames p linksReady t) (controllerRun p linksReady t)
  | 0 => by
    have hf := hp.frame_two
    refine ⟨?_, ?_, fun _ => rfl⟩
    · show (0 : BitVec p.slotBits).toNat < p.frameSlots
      rw [toNat_zero]
      omega
    · show (0 : BitVec p.eventBits).toNat = _
      rw [toNat_zero, completedFrames, range_zero, countP_nil, Nat.zero_mod]
  | t + 1 => by
    rw [completedFrames_succ]
    exact (controllerRun_inv hp t).step hp (linksReady t)

/-! ## the pulses of one clock -/

theorem testBit_eventMask {order : List String} {event : ClockEvent} :
    (eventMask order event).testBit index = true ↔
      ∃ clock ∈ event.clocks, order.idxOf clock = index := by
  have hf : ∀ (clocks : List String) (mask : Nat),
      (clocks.foldl (fun m clock => m ||| 1 <<< order.idxOf clock) mask).testBit index = true ↔
        mask.testBit index = true ∨ ∃ clock ∈ clocks, order.idxOf clock = index := by
    intro clocks
    induction clocks with
    | nil => simp
    | cons clock clocks ih =>
      intro mask
      rw [foldl_cons, ih, Nat.testBit_or, Nat.one_shiftLeft, Nat.testBit_two_pow]
      simp only [Bool.or_eq_true, decide_eq_true_eq, exists_mem_cons_iff, or_assoc]
  simpa [eventMask] using hf event.clocks 0

theorem indexBits_fits {n : Nat} (hn : 0 < n) : n ≤ 2 ^ indexBits (n - 1) := by
  have hs : n - 1 < 2 ^ (n - 1).size := Nat.lt_size_self (n - 1)
  have hm : 2 ^ (n - 1).size ≤ 2 ^ indexBits (n - 1) :=
    Nat.pow_le_pow_right two_pos (le_max_right 1 _)
  omega

section Runtime

variable {runtime : VirtualRuntime} {periodTicks : List (String × Nat)}

theorem Calendar.fits (h : Calendar runtime.contract periodTicks) (hs : 2 ≤ runtime.slots) :
    ControllerFits (controllerParams runtime) := by
  have hl : runtime.contract.events.length = runtime.contract.calendarTicks := by
    simp [h.events_eq]
  have hp : 0 < runtime.contract.events.length := hl ▸ h.calendar_pos
  have hf : 0 < runtime.slots := by omega
  refine ⟨hs, indexBits_fits hf, ?_, ?_⟩
  · rw [controllerParams, length_map]
    exact indexBits_fits hp
  · rw [controllerParams, length_map]
    exact hp

def clockIndex (runtime : VirtualRuntime) (clock : String) : Nat :=
  (clockOrder runtime.contract).idxOf clock

variable {item : String × Nat}

theorem Calendar.mem_clockOrder (h : Calendar runtime.contract periodTicks)
    (hi : item ∈ periodTicks) : item.1 ∈ clockOrder runtime.contract := by
  rw [clockOrder, mem_sorted]
  have hn : runtime.contract.clocks.map VirtualClock.clock = periodTicks.map Prod.fst := by
    rw [← h.clocks_eq, map_map]
    rfl
  rw [hn]
  exact mem_map_of_mem hi

theorem Calendar.testBit_mask (h : Calendar runtime.contract periodTicks)
    (hi : item ∈ periodTicks) {tick : Nat} (ht : tick < runtime.contract.calendarTicks) :
    (((controllerParams runtime).masks[tick]?).getD 0).testBit (clockIndex runtime item.1) = true ↔
      item.2 ∣ tick + 1 := by
  have hg : (controllerParams runtime).masks[tick]? = some (eventMask (clockOrder runtime.contract)
      { offsetTicks := tick + 1
        clocks := (periodTicks.filter fun item => (tick + 1) % item.2 = 0).map Prod.fst }) := by
    rw [controllerParams, h.events_eq]
    simp [ht, Nat.add_comm]
  rw [hg, Option.getD_some, testBit_eventMask]
  constructor
  · rintro ⟨clock, hc, hin⟩
    obtain ⟨other, ho, rfl⟩ := mem_map.mp hc
    obtain ⟨hm, hd⟩ := mem_filter.mp ho
    have hn : other.1 = item.1 := (idxOf_inj (h.mem_clockOrder hm)).mp hin
    have hs : other = item := inj_on_of_nodup_map h.clocks_nodup hm hi hn
    rw [← hs]
    exact Nat.dvd_of_mod_eq_zero (of_decide_eq_true hd)
  · intro hdv
    refine ⟨item.1, mem_map_of_mem (mem_filter.mpr ⟨hi, ?_⟩), rfl⟩
    exact decide_eq_true (Nat.mod_eq_zero_of_dvd hdv)

variable (linksReady) in
theorem Calendar.clockPulse_iff (h : Calendar runtime.contract periodTicks)
    (hs : 2 ≤ runtime.slots) (hi : item ∈ periodTicks) (t : Nat) :
    clockPulse (controllerParams runtime) linksReady (clockIndex runtime item.1) t = true ↔
      frameCompletes (controllerParams runtime) linksReady t = true ∧
        item.2 ∣ completedFrames (controllerParams runtime) linksReady t + 1 := by
  set frames := completedFrames (controllerParams runtime) linksReady t with hf
  have hm : (controllerParams runtime).masks.length = runtime.contract.calendarTicks := by
    simp [controllerParams, h.events_eq]
  have hin : clockIndex runtime item.1 < (controllerParams runtime).clockCount :=
    idxOf_lt_length_of_mem (h.mem_clockOrder hi)
  have he := (controllerRun_inv linksReady (h.fits hs) t).event_eq
  rw [← hf, hm] at he
  rw [clockPulse_eq, Bool.and_eq_true, BitVec.getLsbD_ofNat, he, decide_eq_true hin,
    Bool.true_and, h.testBit_mask hi (Nat.mod_lt _ h.calendar_pos)]
  -- the calendar is a whole number of the clock's periods
  have hd := h.ticks_dvd item hi
  have hsp : frames + 1 = (frames % runtime.contract.calendarTicks + 1) +
        runtime.contract.calendarTicks * (frames / runtime.contract.calendarTicks) := by
    have := Nat.div_add_mod frames runtime.contract.calendarTicks
    omega
  rw [hsp, Nat.dvd_add_left (hd.mul_right _)]

theorem Calendar.clockPulses_eq (h : Calendar runtime.contract periodTicks)
    (hs : 2 ≤ runtime.slots) (hi : item ∈ periodTicks) (t : Nat) :
    clockPulses (controllerParams runtime) linksReady (clockIndex runtime item.1) t =
      completedFrames (controllerParams runtime) linksReady t / item.2 := by
  induction t with
  | zero => simp [clockPulses, completedFrames]
  | succ t ih =>
    have hif := h.clockPulse_iff linksReady hs hi t
    rw [clockPulses_succ, completedFrames_succ, ih]
    cases hf : frameCompletes (controllerParams runtime) linksReady t with
    | false =>
      have hn : clockPulse (controllerParams runtime) linksReady (clockIndex runtime item.1) t =
          false := by
        rw [Bool.eq_false_iff]
        intro hp
        have := (hif.mp hp).1
        rw [hf] at this
        cases this
      rw [hn]
      rfl
    | true =>
      rw [Bool.toNat_true, Nat.succ_div]
      split
      · next hd =>
        rw [hif.mpr ⟨hf, hd⟩]
        rfl
      · next hd =>
        have hn : clockPulse (controllerParams runtime) linksReady
            (clockIndex runtime item.1) t = false := by
          rw [Bool.eq_false_iff]
          exact fun hp => hd (hif.mp hp).2
        rw [hn]
        rfl

end Runtime

/-! ## the slot counter -/

variable {regs : ControllerRegs p}

theorem step_slot_of_not_ready (hi : regs.started = false → regs.slot = 0)
    (hw : regs.started = false ∨ regs.lastSlot = true) :
    (regs.step false).slot = regs.slot := by
  unfold ControllerRegs.step
  cases hs : regs.started with
  | false => exact (hi hs).symm
  | true =>
    rcases hw with hw | hw
    · rw [hs] at hw
      cases hw
    · rw [hw]
      rfl

theorem step_slot_of_running (hs : regs.started = true)
    (hl : regs.lastSlot = false) (linksReady : Bool) :
    (regs.step linksReady).slot = regs.slot + 1 := by
  unfold ControllerRegs.step
  rw [hs, hl]
  rfl

theorem buildVirtualRuntime_eq_ok {schedule : TdmSchedule} {platform : Platform}
    {clockPeriods : Option (List (String × ℚ))} {runtime : VirtualRuntime}
    (h : buildVirtualRuntime schedule platform clockPeriods = .ok runtime) :
    2 ≤ runtime.slots ∧ runtime.slots = schedule.metrics.frameSlots ∧ ∃ framePeriodNs,
      buildVirtualClockContract clockPeriods framePeriodNs = .ok runtime.contract := by
  unfold buildVirtualRuntime at h
  obtain ⟨⟨⟩, hf, h⟩ := bind_eq_ok.mp h
  obtain ⟨⟨⟩, -, h⟩ := bind_eq_ok.mp h
  obtain ⟨clock, -, h⟩ := bind_eq_ok.mp h
  obtain ⟨contract, hc, h⟩ := bind_eq_ok.mp h
  injection h with h
  unfold checkFrame at hf
  simp only [raiseIf_bind, not_lt] at hf
  rw [← h]
  exact ⟨hf.2.2.1, rfl, _, hc⟩

/-- **The controller delivers the calendar.** However often the links drop out, a clock has had one
enable pulse for every `periodTicks` completed frames; pulses occur after the start, in the last
slot of a frame, with the links ready; the slot counter waits for the links there and before the
start, and nowhere else. -/
theorem virtualClocks_pulse {schedule : TdmSchedule} {platform : Platform}
    {clockPeriods : Option (List (String × ℚ))} {runtime : VirtualRuntime}
    (hkeys : ((clockPeriodsOrDefault clockPeriods).map Prod.fst).Nodup)
    (hbuild : buildVirtualRuntime schedule platform clockPeriods = .ok runtime)
    (linksReady : Nat → Bool) (t : Nat) :
    (∀ clock ∈ runtime.contract.clocks,
        clockPulses (controllerParams runtime) linksReady (clockIndex runtime clock.clock) t =
          completedFrames (controllerParams runtime) linksReady t / clock.periodTicks) ∧
      (∀ index, clockPulse (controllerParams runtime) linksReady index t = true →
        (controllerRun (controllerParams runtime) linksReady t).started = true ∧
          linksReady t = true ∧
          (controllerRun (controllerParams runtime) linksReady t).slot.toNat + 1 = runtime.slots) ∧
      (linksReady t = false → ((controllerRun (controllerParams runtime) linksReady (t + 1)).slot =
            (controllerRun (controllerParams runtime) linksReady t).slot ↔
          ((controllerRun (controllerParams runtime) linksReady t).started = false ∨
            (controllerRun (controllerParams runtime) linksReady t).slot.toNat + 1 =
              runtime.slots))) := by
  obtain ⟨hslots, -, framePeriodNs, hcontract⟩ := buildVirtualRuntime_eq_ok hbuild
  obtain ⟨periodTicks, hcalendar⟩ := buildVirtualClockContract_eq_ok hkeys hcontract
  have hinv := controllerRun_inv linksReady (hcalendar.fits hslots) t
  refine ⟨?_, ?_, ?_⟩
  · intro clock hclock
    have hitem : (clock.clock, clock.periodTicks) ∈ periodTicks := by
      rw [← hcalendar.clocks_eq]
      exact mem_map_of_mem hclock
    exact hcalendar.clockPulses_eq hslots hitem t
  · intro index hpulse
    rw [clockPulse_eq, Bool.and_eq_true] at hpulse
    obtain ⟨hframe, -⟩ := hpulse
    simp only [frameCompletes, Bool.and_eq_true, ControllerRegs.lastSlot, beq_iff_eq] at hframe
    exact ⟨hframe.1.1, hframe.1.2, hframe.2⟩
  · intro hready
    rw [controllerRun, hready]
    constructor
    · intro hhold
      by_contra hgo
      rw [not_or, Bool.not_eq_false] at hgo
      obtain ⟨hstarted, hlast⟩ := hgo
      have hlast' : (controllerRun (controllerParams runtime) linksReady t).lastSlot = false :=
        beq_eq_false_iff_ne.mpr hlast
      have hfit := (hcalendar.fits hslots).slot_fits
      have hlt := hinv.slot_lt
      have hnext := toNat_add_one (x := (controllerRun (controllerParams runtime) linksReady
        t).slot)
        (lt_of_lt_of_le (lt_of_le_of_ne hlt hlast) hfit)
      rw [step_slot_of_running hstarted hlast'] at hhold
      rw [hhold] at hnext
      omega
    · intro hwait
      refine step_slot_of_not_ready hinv.idle (hwait.imp_right fun hlast => ?_)
      exact beq_iff_eq.mpr hlast

/-- The links of the one-net schedule drop out in the first slot, and the slot counter goes on. -/
theorem oneNet_slot_runs_on : ∃ runtime,
    buildVirtualRuntime (oneNetSchedule false) lineBoard none = .ok runtime ∧
      ∃ (linksReady : Nat → Bool) (t : Nat), linksReady t = false ∧
        (controllerRun (controllerParams runtime) linksReady (t + 1)).slot ≠
          (controllerRun (controllerParams runtime) linksReady t).slot := by
  obtain ⟨runtime, hbuild⟩ : ∃ runtime,
      buildVirtualRuntime (oneNetSchedule false) lineBoard none = .ok runtime :=
    exists_of_isOk (by decide +kernel)
  obtain ⟨-, hslots, -⟩ := buildVirtualRuntime_eq_ok hbuild
  have height : (controllerParams runtime).frameSlots = 8 := hslots
  have hbits : (controllerParams runtime).slotBits = 3 := by
    rw [controllerParams, hslots]
    show indexBits (8 - 1) = 3
    decide
  have hlast : (ControllerRegs.reset.step true : ControllerRegs (controllerParams runtime)).lastSlot
      = false := by
    rw [ControllerRegs.lastSlot, height]
    show ((0 : BitVec (controllerParams runtime).slotBits).toNat + 1 == 8) = false
    rw [toNat_zero]
    rfl
  refine ⟨runtime, hbuild, fun t => t == 0, 1, rfl, ?_⟩
  show ((ControllerRegs.reset.step true : ControllerRegs (controllerParams runtime)).step
    false).slot
    ≠ _
  rw [step_slot_of_running rfl hlast]
  show (0 : BitVec (controllerParams runtime).slotBits) + 1 ≠ 0
  rw [hbits]
  decide

/-- With links that drop out every other cycle. -/
theorem oneNet_clocks_pulse : ∃ runtime,
    buildVirtualRuntime (oneNetSchedule false) lineBoard none = .ok runtime ∧
      ∀ t, ∀ clock ∈ runtime.contract.clocks,
        clockPulses (controllerParams runtime) (fun t => t % 2 == 0)
            (clockIndex runtime clock.clock) t =
          completedFrames (controllerParams runtime) (fun t => t % 2 == 0) t /
            clock.periodTicks := by
  obtain ⟨runtime, hbuild⟩ : ∃ runtime,
      buildVirtualRuntime (oneNetSchedule false) lineBoard none = .ok runtime :=
    exists_of_isOk (by decide +kernel)
  exact ⟨runtime, hbuild, fun t =>
    (virtualClocks_pulse (by decide) hbuild (fun t => t % 2 == 0) t).1⟩

/-- The controller waits for the links, before the start or in the last slot of a frame. -/
def waits (p : ControllerParams) (linksReady : Nat → Bool) (t : Nat) : Bool :=
  !linksReady t && (!(controllerRun p linksReady t).started ||
    (controllerRun p linksReady t).lastSlot)

/-- The cycles before cycle `t` in which the controller waited. -/
def waitingCycles (p : ControllerParams) (linksReady : Nat → Bool) (t : Nat) : Nat :=
  (List.range t).countP (waits p linksReady)

theorem waitingCycles_succ (t : Nat) : waitingCycles p linksReady (t + 1) =
    waitingCycles p linksReady t + (waits p linksReady t).toNat := by
  rw [waitingCycles, range_succ, countP_append, waitingCycles, countP_singleton]
  cases waits p linksReady t <;> rfl

/-- Every cycle goes into a completed frame, into the frame at hand, or is waited. -/
theorem cycles_eq (hp : ControllerFits p) (t : Nat) :
    completedFrames p linksReady t * p.frameSlots + (controllerRun p linksReady t).slot.toNat +
        (controllerRun p linksReady t).started.toNat + waitingCycles p linksReady t = t ∧
      ((controllerRun p linksReady t).started = false → completedFrames p linksReady t = 0) := by
  induction t with
  | zero => exact ⟨by simp [completedFrames, waitingCycles, controllerRun, ControllerRegs.reset],
      fun _ => rfl⟩
  | succ t ih =>
    obtain ⟨hs, hz⟩ := ih
    have hi := controllerRun_inv linksReady hp t
    have hlt := hi.slot_lt
    have hf := hp.slot_fits
    rw [completedFrames_succ, waitingCycles_succ, frameCompletes, waits, controllerRun]
    generalize controllerRun p linksReady t = regs at *
    cases hst : regs.started with
    | false =>
      have hsl := hi.idle hst
      rw [hz hst, hsl, hst] at hs
      cases hr : linksReady t <;> simp_all [ControllerRegs.step]
      omega
    | true =>
      rw [hst] at hs
      cases hl : regs.lastSlot with
      | false =>
        have hne : regs.slot.toNat + 1 ≠ p.frameSlots := beq_eq_false_iff_ne.mp hl
        have hn := toNat_add_one (x := regs.slot) (by omega)
        have hsp : regs.step (linksReady t) = { regs with slot := regs.slot + 1 } := by
          simp [ControllerRegs.step, hst, hl]
        rw [hsp]
        dsimp only
        rw [hn]
        simp [hst] at hs ⊢
        omega
      | true =>
        have heq : regs.slot.toNat + 1 = p.frameSlots := beq_iff_eq.mp hl
        rw [Bool.toNat_true] at hs
        cases hr : linksReady t <;>
          simp [ControllerRegs.step, hst, hl, Nat.add_mul] <;> omega

theorem completedFrames_eq (hp : ControllerFits p) (t : Nat) :
    completedFrames p linksReady t = (t - waitingCycles p linksReady t - 1) / p.frameSlots := by
  obtain ⟨hsm, hz⟩ := @cycles_eq p linksReady hp t
  have hi := controllerRun_inv linksReady hp t
  have hlt := hi.slot_lt
  cases hs : (controllerRun p linksReady t).started with
  | false =>
    have hsl : (controllerRun p linksReady t).slot.toNat = 0 := by
      rw [hi.idle hs]; exact toNat_zero
    rw [hz hs, hsl, hs] at hsm
    rw [hz hs, Nat.div_eq_of_lt]
    simp at hsm
    omega
  | true =>
    rw [hs] at hsm
    have hr : t - waitingCycles p linksReady t - 1 =
        (controllerRun p linksReady t).slot.toNat +
          p.frameSlots * completedFrames p linksReady t := by
      rw [Nat.mul_comm]
      simp at hsm
      omega
    rw [hr, Nat.add_mul_div_left _ _ (by omega), Nat.div_eq_of_lt hlt, Nat.zero_add]

/-- **The clocks run at their rate.** A clock has had one enable pulse for every `periodTicks`
frames that fit into the cycles in which the controller did not wait. -/
theorem clockPulses_rate {schedule : TdmSchedule} {platform : Platform}
    {clockPeriods : Option (List (String × ℚ))} {runtime : VirtualRuntime}
    (hkeys : ((clockPeriodsOrDefault clockPeriods).map Prod.fst).Nodup)
    (hbuild : buildVirtualRuntime schedule platform clockPeriods = .ok runtime)
    (linksReady : Nat → Bool) (t : Nat) : ∀ clock ∈ runtime.contract.clocks,
      clockPulses (controllerParams runtime) linksReady (clockIndex runtime clock.clock) t =
        (t - waitingCycles (controllerParams runtime) linksReady t - 1) /
          (runtime.slots * clock.periodTicks) := by
  obtain ⟨hslots, -, framePeriodNs, hcontract⟩ := buildVirtualRuntime_eq_ok hbuild
  obtain ⟨periodTicks, hcalendar⟩ := buildVirtualClockContract_eq_ok hkeys hcontract
  intro clock hclock
  have hitem : (clock.clock, clock.periodTicks) ∈ periodTicks := by
    rw [← hcalendar.clocks_eq]
    exact mem_map_of_mem hclock
  rw [hcalendar.clockPulses_eq hslots hitem t, completedFrames_eq (hcalendar.fits hslots),
    Nat.div_div_eq_div_mul]
  rfl

theorem oneNet_clocks_rate : ∃ runtime,
    buildVirtualRuntime (oneNetSchedule false) lineBoard none = .ok runtime ∧
      ∀ t, ∀ clock ∈ runtime.contract.clocks,
        clockPulses (controllerParams runtime) (fun t => t % 2 == 0)
            (clockIndex runtime clock.clock) t =
          (t - waitingCycles (controllerParams runtime) (fun t => t % 2 == 0) t - 1) /
            (runtime.slots * clock.periodTicks) := by
  obtain ⟨runtime, hbuild⟩ : ∃ runtime,
      buildVirtualRuntime (oneNetSchedule false) lineBoard none = .ok runtime :=
    exists_of_isOk (by decide +kernel)
  exact ⟨runtime, hbuild, fun t => clockPulses_rate (by decide) hbuild _ t⟩

end EmuFlow.Runtime
