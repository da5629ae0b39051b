import EmuFlow.Pcs.Xgmii

/-!
# The record stream between framer and deframer

The two modules on one clock, the receiver sampling the sender's column of each cycle. Between them
a record is in one of two places: held by the sender while its columns go out, and at the
receiver's output until the consumer takes it.
-/

namespace EmuFlow.Pcs

open List DeframerRegs FramerRegs

/-- The inputs of a run: the records offered to the framer, and when the consumer is ready. -/
structure LinkInputs where
  offer : Nat → Option Record
  recordReady : Nat → Bool

structure LinkRegs where
  framer : FramerRegs
  deframer : DeframerRegs

variable (inputs : LinkInputs)

def linkRun : Nat → LinkRegs
  | 0 => { framer := .reset, deframer := .reset }
  | t + 1 =>
    { framer := (linkRun t).framer.step (inputs.offer t)
      deframer := (linkRun t).deframer.step (linkRun t).framer.column (inputs.recordReady t) }

def acceptedAt (t : Nat) : List Record :=
  if (linkRun inputs t).framer.recordReady then (inputs.offer t).toList else []

def deliveredAt (t : Nat) : List Record :=
  if (linkRun inputs t).deframer.recordValid && inputs.recordReady t then
    [(linkRun inputs t).deframer.record]
  else []

def accepted (t : Nat) : List Record := (List.range t).flatMap (acceptedAt inputs)

def delivered (t : Nat) : List Record := (List.range t).flatMap (deliveredAt inputs)

variable {inputs} {t : Nat}

theorem accepted_succ : accepted inputs (t + 1) = accepted inputs t ++ acceptedAt inputs t := by
  simp [accepted, range_succ]

theorem delivered_succ : delivered inputs (t + 1) = delivered inputs t ++ deliveredAt inputs t := by
  simp [delivered, range_succ]

/-! ## the two places of a record -/

def FramerRegs.pending (regs : FramerRegs) : List Record :=
  match regs.state with
  | .idle => []
  | _ => [regs.held]

def DeframerRegs.waiting (regs : DeframerRegs) : List Record :=
  if regs.recordValid then [regs.record] else []

/-- How far the receiver is with the columns the sender has sent of its record. -/
def Synchronised (framer : FramerRegs) (deframer : DeframerRegs) : Prop :=
  match framer.state with
  | .idle | .header => deframer.state = .idle
  | .body =>
    deframer.state = .body ∧ deframer.kindReg = framer.held.kind ∧
      deframer.sequenceReg = framer.held.sequence ∧
      deframer.payloadLowReg = word16 (byte framer.held.payload 1) (byte framer.held.payload 0)
  | .term =>
    deframer.state = .term ∧ deframer.assembled = framer.held ∧ deframer.bodyCrcOk = true

def Waited (recordReady : Nat → Bool) (t : Nat) (framer : FramerRegs) : Prop :=
  match framer.state with
  | .idle | .header => True
  | .body => 1 ≤ t ∧ recordReady (t - 1) = false
  | .term => 2 ≤ t ∧ recordReady (t - 1) = false ∧ recordReady (t - 2) = false

def DeframerRegs.clean (regs : DeframerRegs) : Prop :=
  regs.framingError = false ∧ regs.crcError = false ∧ regs.overflowError = false

/-- The state of the link in a cycle, against the records accepted and delivered before it. -/
structure LinkInv (inputs : LinkInputs) (t : Nat) : Prop where
  sync : Synchronised (linkRun inputs t).framer (linkRun inputs t).deframer
  waited : (linkRun inputs t).deframer.recordValid = true →
    Waited inputs.recordReady t (linkRun inputs t).framer
  clean : (linkRun inputs t).deframer.clean
  records : accepted inputs t = delivered inputs t ++ (linkRun inputs t).deframer.waiting ++
    (linkRun inputs t).framer.pending

def ReadyOften (recordReady : Nat → Bool) : Prop :=
  ∀ t, recordReady t = true ∨ recordReady (t + 1) = true ∨ recordReady (t + 2) = true

theorem ReadyOften.ready_of_waited {recordReady : Nat → Bool} (h : ReadyOften recordReady)
    {framer : FramerRegs} (htr : framer.state = .term) (hw : Waited recordReady t framer) :
    recordReady t = true := by
  rw [Waited, htr] at hw
  obtain ⟨ht, h₁, h₂⟩ := hw
  obtain ⟨s, rfl⟩ : ∃ s, t = s + 2 := ⟨t - 2, by omega⟩
  rcases h s with hr | hr | hr
  · rw [show s + 2 - 2 = s by omega, hr] at h₂
    cases h₂
  · rw [show s + 2 - 1 = s + 1 by omega, hr] at h₁
    cases h₁
  · exact hr

theorem waiting_consume {regs : DeframerRegs} (ready : Bool) :
    regs.waiting = (if regs.recordValid && ready then [regs.record] else []) ++
      (regs.consume ready).waiting := by
  cases hv : regs.recordValid <;> cases ready <;>
    simp [waiting, consume, hv]

/-! ## one clock of the pair -/

section Step

variable {framer : FramerRegs} {deframer : DeframerRegs} {offer : Option Record} {ready : Bool}

section

variable (hsync : Synchronised framer deframer)
include hsync

theorem step_column (hf : framer.state = .term → deframer.recordValid = true → ready = true) :
    deframer.step framer.column ready = match framer.state with
      | .idle => deframer.consume ready
      | .header =>
        { deframer.consume ready with
          kindReg := framer.held.kind, sequenceReg := framer.held.sequence
          payloadLowReg := word16 (byte framer.held.payload 1) (byte framer.held.payload 0)
          state := .body }
      | .body =>
        { deframer.consume ready with
          payloadReg := framer.held.payload, bodyCrcOk := true, state := .term }
      | .term =>
        { deframer.consume ready with
          recordValid := true, record := framer.held, state := .idle } := by
  unfold Synchronised at hsync
  unfold column
  cases hs : framer.state with
  | idle =>
    rw [hs] at hsync
    exact step_idleColumn hsync
  | header =>
    rw [hs] at hsync
    exact step_headerColumn hsync
  | body =>
    rw [hs] at hsync
    obtain ⟨hb, hk, hsq, hl⟩ := hsync
    exact step_bodyColumn hb hk hsq hl
  | term =>
    rw [hs] at hsync
    obtain ⟨ht, ha, hc⟩ := hsync
    rw [← ha]
    exact step_termColumn ht hc (hf hs)

theorem synchronised_step
    (hf : framer.state = .term → deframer.recordValid = true → ready = true) :
    Synchronised (framer.step offer) (deframer.step framer.column ready) := by
  rw [step_column hsync hf]
  unfold Synchronised at hsync
  cases hs : framer.state with
  | idle =>
    rw [hs] at hsync
    cases offer <;> simp [FramerRegs.step, hs, Synchronised, DeframerRegs.consume, hsync]
  | header => simp [FramerRegs.step, hs, Synchronised]
  | body =>
    rw [hs] at hsync
    obtain ⟨-, hk, hsq, -⟩ := hsync
    simp [FramerRegs.step, hs, Synchronised, DeframerRegs.assembled, DeframerRegs.consume,
      hk, hsq]
  | term => cases offer <;> simp [FramerRegs.step, hs, Synchronised]

theorem clean_step (hc : deframer.clean)
    (hf : framer.state = .term → deframer.recordValid = true → ready = true) :
    (deframer.step framer.column ready).clean := by
  rw [step_column hsync hf]
  cases framer.state <;> exact hc

theorem records_step (hf : framer.state = .term → deframer.recordValid = true → ready = true) :
    deframer.waiting ++ framer.pending ++ (if framer.recordReady then offer.toList else []) =
      (if deframer.recordValid && ready then [deframer.record] else []) ++
        (deframer.step framer.column ready).waiting ++ (framer.step offer).pending := by
  rw [step_column hsync hf, waiting_consume ready]
  cases hs : framer.state with
  | idle =>
    cases offer <;> simp [FramerRegs.step, FramerRegs.pending, FramerRegs.recordReady, hs]
  | header =>
    simp [FramerRegs.step, FramerRegs.pending, FramerRegs.recordReady, hs, DeframerRegs.waiting]
  | body =>
    simp [FramerRegs.step, FramerRegs.pending, FramerRegs.recordReady, hs, DeframerRegs.waiting]
  | term =>
    -- the output is free for the record whose terminator is on the wire
    have he : (deframer.consume ready).waiting = [] := by
      cases hv : deframer.recordValid with
      | false => simp [DeframerRegs.waiting, DeframerRegs.consume, hv]
      | true => simp [DeframerRegs.waiting, DeframerRegs.consume, hf hs hv]
    rw [he]
    cases offer <;> simp [FramerRegs.step, FramerRegs.pending, FramerRegs.recordReady, hs,
        DeframerRegs.waiting]

theorem recordValid_step (hs : framer.state = .header ∨ framer.state = .body)
    (hv : (deframer.step framer.column ready).recordValid = true) :
    deframer.recordValid = true ∧ ready = false := by
  have hf : framer.state = .term → deframer.recordValid = true → ready = true := by
    intro ht
    rcases hs with h | h <;> rw [h] at ht <;> cases ht
  rw [step_column hsync hf] at hv
  rcases hs with h | h <;> rw [h] at hv <;> simpa [consume] using hv

end

end Step

theorem linkInv_zero : LinkInv inputs 0 :=
  { sync := rfl
    waited := fun h => by cases h
    clean := ⟨rfl, rfl, rfl⟩
    records := rfl }

theorem LinkInv.free (h : LinkInv inputs t) (hr : ReadyOften inputs.recordReady)
    (ht : (linkRun inputs t).framer.state = .term)
    (hv : (linkRun inputs t).deframer.recordValid = true) : inputs.recordReady t = true :=
  hr.ready_of_waited ht (h.waited hv)

theorem LinkInv.step (h : LinkInv inputs t) (hr : ReadyOften inputs.recordReady) :
    LinkInv inputs (t + 1) := by
  have hf := h.free hr
  refine ⟨synchronised_step h.sync hf, ?_, clean_step h.sync h.clean hf, ?_⟩
  · intro hv
    show Waited inputs.recordReady (t + 1) ((linkRun inputs t).framer.step (inputs.offer t))
    cases hs : (linkRun inputs t).framer.state with
    | idle => cases inputs.offer t <;> simp [FramerRegs.step, Waited, hs]
    | term => cases inputs.offer t <;> simp [FramerRegs.step, Waited, hs]
    | header =>
      obtain ⟨-, hb⟩ := recordValid_step h.sync (Or.inl hs) hv
      simp [FramerRegs.step, Waited, hs, hb]
    | body =>
      obtain ⟨hv', hb⟩ := recordValid_step h.sync (Or.inr hs) hv
      have hw := h.waited hv'
      rw [Waited, hs] at hw
      obtain ⟨ht, hbf⟩ := hw
      simp only [FramerRegs.step, Waited, hs]
      refine ⟨by omega, hb, ?_⟩
      rw [show t + 1 - 2 = t - 1 by omega]
      exact hbf
  · rw [accepted_succ, delivered_succ, h.records, append_assoc, append_assoc,
      append_assoc, append_assoc]
    refine congrArg _ ?_
    rw [← append_assoc, ← append_assoc, acceptedAt, deliveredAt]
    exact records_step h.sync hf

theorem linkInv (hr : ReadyOften inputs.recordReady) : ∀ t, LinkInv inputs t
  | 0 => linkInv_zero
  | t + 1 => (linkInv hr t).step hr

/-! ## every record arrives -/

theorem delivered_prefix (t k : Nat) : delivered inputs t <+: delivered inputs (t + k) := by
  induction k with
  | zero => exact prefix_rfl
  | succ k ih =>
    rw [← Nat.add_assoc, delivered_succ]
    exact ih.trans (prefix_append _ _)

theorem delivered_of_ready (h : inputs.recordReady t = true) :
    delivered inputs (t + 1) = delivered inputs t ++ (linkRun inputs t).deframer.waiting := by
  rw [delivered_succ, deliveredAt, h, Bool.and_true, waiting]

theorem LinkInv.waiting_stays (h : LinkInv inputs t) (hr : ReadyOften inputs.recordReady)
    (hb : inputs.recordReady t = false) : delivered inputs (t + 1) = delivered inputs t ∧
      (linkRun inputs t).deframer.waiting <+: (linkRun inputs (t + 1)).deframer.waiting := by
  constructor
  · rw [delivered_succ, deliveredAt, hb, Bool.and_false]
    exact append_nil _
  · cases hv : (linkRun inputs t).deframer.recordValid with
    | false =>
      rw [waiting, hv]
      exact nil_prefix
    | true =>
      have hf := h.free hr
      show _ <+: ((linkRun inputs t).deframer.step (linkRun inputs t).framer.column
        (inputs.recordReady t)).waiting
      rw [step_column h.sync hf]
      cases hs : (linkRun inputs t).framer.state with
      | term =>
        rw [hf hs hv] at hb
        cases hb
      | idle => simp [waiting, consume, hv, hb]
      | header => simp [waiting, consume, hv, hb]
      | body => simp [waiting, consume, hv, hb]

theorem waiting_delivered (hr : ReadyOften inputs.recordReady) (t : Nat) :
    delivered inputs t ++ (linkRun inputs t).deframer.waiting <+: delivered inputs (t + 3) := by
  have hst : ∀ s, inputs.recordReady s = false →
      delivered inputs s ++ (linkRun inputs s).deframer.waiting <+:
        delivered inputs (s + 1) ++ (linkRun inputs (s + 1)).deframer.waiting := by
    intro s hs
    obtain ⟨hsm, hp⟩ := (linkInv hr s).waiting_stays hr hs
    rw [hsm]
    exact (prefix_append_right_inj _).mpr hp
  cases h₀ : inputs.recordReady t with
  | true =>
    rw [← delivered_of_ready h₀]
    exact delivered_prefix _ 2
  | false =>
    refine (hst t h₀).trans ?_
    cases h₁ : inputs.recordReady (t + 1) with
    | true =>
      rw [← delivered_of_ready h₁]
      exact delivered_prefix _ 1
    | false =>
      refine (hst (t + 1) h₁).trans ?_
      have h₂ : inputs.recordReady (t + 2) = true := by
        rcases hr t with h | h | h
        · rw [h] at h₀
          cases h₀
        · rw [h] at h₁
          cases h₁
        · exact h
      rw [← delivered_of_ready h₂]

theorem accepted_sent (hr : ReadyOften inputs.recordReady) (t : Nat) : ∃ k ≤ 3,
    accepted inputs t <+: delivered inputs (t + k) ++ (linkRun inputs
      (t + k)).deframer.waiting := by
  have ht : ∀ s, (linkRun inputs s).framer.state = .term → accepted inputs s =
      delivered inputs (s + 1) ++ (linkRun inputs (s + 1)).deframer.waiting := by
    intro s hs
    have hn := (linkInv hr (s + 1)).records
    have ho : (linkRun inputs (s + 1)).framer.pending = acceptedAt inputs s := by
      show ((linkRun inputs s).framer.step (inputs.offer s)).pending = _
      cases h : inputs.offer s <;>
        simp [FramerRegs.step, FramerRegs.pending, acceptedAt, FramerRegs.recordReady, hs, h]
    rw [accepted_succ, ho] at hn
    exact append_cancel_right hn
  have hq : ∀ s, (linkRun inputs s).framer.recordReady = false →
      accepted inputs (s + 1) = accepted inputs s := by
    intro s hs
    rw [accepted_succ, acceptedAt, hs]
    exact append_nil _
  have hb : ∀ s, (linkRun inputs s).framer.state = .body → accepted inputs s =
      delivered inputs (s + 2) ++ (linkRun inputs (s + 2)).deframer.waiting := by
    intro s hs
    have hn : (linkRun inputs (s + 1)).framer.state = .term := by
      show ((linkRun inputs s).framer.step (inputs.offer s)).state = .term
      simp only [FramerRegs.step, hs]
    rw [← hq s (by rw [FramerRegs.recordReady, hs]; rfl)]
    exact ht (s + 1) hn
  cases hst : (linkRun inputs t).framer.state with
  | idle =>
    refine ⟨0, by omega, ?_⟩
    rw [(linkInv hr t).records, FramerRegs.pending, hst, append_nil, Nat.add_zero]
  | header =>
    have hn : (linkRun inputs (t + 1)).framer.state = .body := by
      show ((linkRun inputs t).framer.step (inputs.offer t)).state = .body
      simp only [FramerRegs.step, hst]
    refine ⟨3, le_rfl, ?_⟩
    rw [← hq t (by rw [FramerRegs.recordReady, hst]; rfl), hb (t + 1) hn]
  | body =>
    refine ⟨2, by omega, ?_⟩
    rw [hb t hst]
  | term =>
    refine ⟨1, by omega, ?_⟩
    rw [ht t hst]

/-- **The record stream round trip.** With a consumer that is ready in one of any three columns, the
delivered records are in every cycle a prefix of the accepted ones, six cycles later they contain
all of them, and no error flag is ever raised. -/
theorem recordStream_roundTrip (inputs : LinkInputs) (hready : ReadyOften inputs.recordReady)
    (t : Nat) :
    delivered inputs t <+: accepted inputs t ∧ accepted inputs t <+: delivered inputs (t + 6) ∧
      (linkRun inputs t).deframer.framingError = false ∧
      (linkRun inputs t).deframer.crcError = false ∧
      (linkRun inputs t).deframer.overflowError = false := by
  refine ⟨?_, ?_, (linkInv hready t).clean⟩
  · rw [(linkInv hready t).records, append_assoc]
    exact prefix_append _ _
  · obtain ⟨k, hk, hsent⟩ := accepted_sent hready t
    refine hsent.trans ((waiting_delivered hready (t + k)).trans ?_)
    have hlater : delivered inputs (t + k + 3) <+: _ := delivered_prefix (t + k + 3) (3 - k)
    rwa [show t + k + 3 + (3 - k) = t + 6 by omega] at hlater

def backToBack : LinkInputs :=
  { offer := fun t => some ⟨1, BitVec.ofNat 16 t, BitVec.ofNat 64 t⟩
    recordReady := fun t => t % 3 == 0 }

theorem backToBack_roundTrip : accepted backToBack 30 <+: delivered backToBack 36 ∧
      (linkRun backToBack 30).deframer.overflowError = false := by
  have hready : ReadyOften backToBack.recordReady := by
    intro s
    simp only [backToBack, beq_iff_eq]
    omega
  obtain ⟨-, hall, -, -, hoverflow⟩ := recordStream_roundTrip backToBack hready 30
  exact ⟨hall, hoverflow⟩

end EmuFlow.Pcs
