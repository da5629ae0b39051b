import EmuFlow.Pcs.Checksum
import EmuFlow.Pcs.ImpairedLink

/-!
# Flipped data bits

The sender's columns reach the receiver with up to three flipped data bits in each frame. A flip in
a constant byte of the header or in the terminator breaks the frame; a flip anywhere else leaves the
two checksums of the record different.
-/

namespace EmuFlow.Pcs

open ErrorDetection FramerRegs
open List

def Column.flip (c : Column) (noise : BitVec 64) : Column := { c with data := c.data ^^^ noise }

@[simp] theorem flip_control (c : Column) (noise : BitVec 64) :
    (c.flip noise).control = c.control := rfl

@[simp] theorem flip_zero (c : Column) : c.flip 0 = c := by simp [Column.flip]

/-! ## the columns of one frame -/

section Frame

variable {r : Record} {x y : BitVec 64}

theorem byte_eq_zero {data : BitVec 64} {i : Nat} {b : BitVec 8} (hs : byte data i = b)
    (h : byte (data ^^^ x) i = b) : byte x i = 0 := by
  rw [byte_xor, hs] at h
  exact (BitVec.xor_right_inj b).mp (h.trans BitVec.xor_zero.symm)

theorem header_zeros (h : ((headerColumn r).flip x).data.extractLsb' 26 6 = 0) :
    x.extractLsb' 26 6 = 0 := by
  have hs : (headerColumn r).data.extractLsb' 26 6 = 0 := by
    have hv := headerValid_header (r := r)
    simp only [headerValid, Bool.and_eq_true, beq_iff_eq] at hv
    exact hv.2
  rw [Column.flip, BitVec.extractLsb'_xor, hs] at h
  simpa using h

theorem flips_of_headerValid (h : headerValid ((headerColumn r).flip x) = true) :
    ∀ i ∈ flips x, i ∈ headerBits := by
  simp only [headerValid, Bool.and_eq_true, beq_iff_eq] at h
  obtain ⟨⟨⟨⟨-, h0⟩, h1⟩, h2⟩, hz⟩ := h
  have hsn : byte (headerColumn r).data 0 = XGMII_START ∧
      byte (headerColumn r).data 1 = PROTOCOL_MAGIC ∧
      byte (headerColumn r).data 2 = PROTOCOL_VERSION := by simp [headerColumn]
  have hby : ∀ k < 3, byte x k = 0 := by
    intro k hk
    interval_cases k
    · exact byte_eq_zero hsn.1 h0
    · exact byte_eq_zero hsn.2.1 h1
    · exact byte_eq_zero hsn.2.2 h2
  intro i hi
  have hs := mem_flips.mp hi
  have hlt : i < 64 := BitVec.lt_of_getLsbD hs
  have hc : ∀ start length, start ≤ i → i < start + length →
      x.extractLsb' start length ≠ 0 := by
    intro start length hst he hze
    have hb := congrArg (fun field => field.getLsbD (i - start)) hze
    simp only [BitVec.getLsbD_extractLsb', show start + (i - start) = i by omega, hs,
      show i - start < length by omega] at hb
    simp at hb
  have hl : ¬ i < 24 := by
    intro hi
    exact hc (8 * (i / 8)) 8 (by omega) (by omega) (hby (i / 8) (by omega))
  have hm : ¬ (26 ≤ i ∧ i < 32) := by
    intro hi
    exact hc 26 6 (by omega) (by omega) (header_zeros hz)
  simp only [headerBits, List.mem_append, mem_cons, not_mem_nil, or_false, mem_map, mem_range]
  by_cases h32 : 32 ≤ i
  · exact Or.inr ⟨i - 32, by omega, by omega⟩
  · exact Or.inl (by omega)

theorem difference_frame : difference (headerColumn r).data (bodyColumn r).data = 0 := by
  obtain ⟨hk, hs, hl⟩ := header_fields (r := r)
  have hp : carried (headerColumn r).data (bodyColumn r).data =
      kindByte r.kind ++ r.sequence ++ r.payload := by
    have ha := assembledPayload_body (r := r)
    rw [← hl, assembledPayload, byte_word16.1, byte_word16.2] at ha
    rw [carried, hk, hs, ha]
  have hc := receivedCrc_body (r := r)
  rw [receivedCrc] at hc
  rw [difference, hp, hc, recordCrc, BitVec.xor_self]
  rfl

theorem crc_match_iff {regs : DeframerRegs} {header body : Column}
    (hk : regs.kindReg = header.data.extractLsb' 24 2)
    (hs : regs.sequenceReg = word16 (byte header.data 5) (byte header.data 4))
    (hl : regs.payloadLowReg = word16 (byte header.data 7) (byte header.data 6)) :
    receivedCrc body = recordCrc { kind := regs.kindReg, sequence := regs.sequenceReg
                                   payload := assembledPayload regs.payloadLowReg body } ↔
      difference header.data body.data = 0 := by
  rw [recordCrc, hk, hs, hl, assembledPayload, byte_word16.1, byte_word16.2, difference,
    carried, receivedCrc]
  exact BitVec.xor_eq_zero_iff.symm

theorem few_flips_intact (hx : ∀ i ∈ flips x, i ∈ headerBits) (hf : weight x + weight y ≤ 3)
    (h : difference ((headerColumn r).flip x).data ((bodyColumn r).flip y).data = 0) :
    x = 0 ∧ y = 0 := by
  by_contra hh
  have hh' : x ≠ 0 ∨ y ≠ 0 := by
    by_cases hz : x = 0
    · exact Or.inr fun hy => hh ⟨hz, hy⟩
    · exact Or.inl hz
  exact difference_ne hx hf hh' (h.trans difference_frame.symm)

end Frame

/-! ## runs -/

section Run

variable {inputs : LinkInputs} {noise : Nat → BitVec 64} {t : Nat}

def noisyColumns (inputs : LinkInputs) (noise : Nat → BitVec 64) (t : Nat) : Column :=
  (linkRun inputs t).framer.column.flip (noise t)

/-- Up to three data bits of each frame are flipped, and none outside the frames. -/
def FewFlips (inputs : LinkInputs) (noise : Nat → BitVec 64) : Prop :=
  ∀ t,
    match (linkRun inputs t).framer.state with
    | .idle => noise t = 0
    | .header => weight (noise t) + weight (noise (t + 1)) + weight (noise (t + 2)) ≤ 3
    | .body | .term => True

/-- Where the receiver is in the frame of the sender's columns; `noise` is as in the run. -/
def Follows (noise : Nat → BitVec 64) (t : Nat) (framer : FramerRegs) (deframer : DeframerRegs) :
    Prop :=
  match framer.state with
  | .idle | .header => deframer.state = .idle
  | .body =>
    deframer.state = .idle ∧ deframer.framingError = true ∨
      deframer.state = .body ∧ ∃ s, t = s + 1 ∧
        deframer.kindReg = ((headerColumn framer.held).flip (noise s)).data.extractLsb' 24 2 ∧
        deframer.sequenceReg = word16 (byte ((headerColumn framer.held).flip (noise s)).data 5)
            (byte ((headerColumn framer.held).flip (noise s)).data 4) ∧
        deframer.payloadLowReg = word16 (byte ((headerColumn framer.held).flip (noise s)).data 7)
            (byte ((headerColumn framer.held).flip (noise s)).data 6) ∧
        (∀ i ∈ flips (noise s), i ∈ headerBits) ∧ weight (noise s) + weight (noise t) ≤ 3
  | .term =>
    deframer.state = .idle ∧ deframer.framingError = true ∨ deframer.state = .term ∧
        (deframer.bodyCrcOk = true → deframer.assembled = framer.held) ∧
        (deframer.bodyCrcOk = false → deframer.crcError = true)

section Step

variable {framer : FramerRegs} {deframer : DeframerRegs} {offer : Option Record} {ready : Bool}

theorem idle_step (ready : Bool) {c : Column} (hi : deframer.state = .idle)
    (hc : c.control ≠ 0x01) :
    (deframer.step c ready).state = .idle ∧
      (deframer.framingError = true → (deframer.step c ready).framingError = true) := by
  have hh : headerValid c = false := by
    rw [headerValid, beq_eq_false_iff_ne.mpr hc]
    rfl
  simp only [DeframerRegs.step, hi, hh, Bool.false_eq_true, if_false]
  split
  · exact ⟨hi, fun _ => rfl⟩
  · exact ⟨hi, id⟩

theorem follows_step (hns : FewFlips inputs noise)
    (h : Follows noise t (linkRun inputs t).framer deframer) :
    Follows noise (t + 1) (linkRun inputs (t + 1)).framer
      (deframer.step (noisyColumns inputs noise t) ready) := by
  have hsc : (linkRun inputs (t + 1)).framer =
      (linkRun inputs t).framer.step (inputs.offer t) := rfl
  rw [hsc, noisyColumns]
  have hfw := hns t
  unfold Follows at h ⊢
  cases hst : (linkRun inputs t).framer.state with
  | idle =>
    rw [hst] at h hfw
    have hcl : ((linkRun inputs t).framer.column.flip (noise t)) = idleColumn := by
      rw [hfw, flip_zero, column, hst]
    have hnx : (deframer.step idleColumn ready).state = .idle := by
      rw [step_idleColumn h]
      exact h
    rw [hcl]
    cases hof : inputs.offer t <;> simp only [step, hst] <;> exact hnx
  | header =>
    rw [hst] at h hfw
    have hcl : (linkRun inputs t).framer.column = headerColumn (linkRun inputs t).framer.held := by
      rw [column, hst]
    simp only [step, hst, hcl]
    by_cases hvl : headerValid ((headerColumn (linkRun inputs t).framer.held).flip (noise t)) = true
    · refine Or.inr ?_
      simp only [DeframerRegs.step, h, hvl, if_true]
      exact ⟨trivial, t, rfl, rfl, rfl, rfl, flips_of_headerValid hvl, by omega⟩
    · refine Or.inl ?_
      have hne : (headerColumn (linkRun inputs t).framer.held).flip (noise t) ≠ idleColumn := by
        intro heq
        have hcn : (0x01 : BitVec 8) = 0xff := congrArg Column.control heq
        exact absurd hcn (by decide)
      rw [step_idle_of_invalid h (Bool.eq_false_iff.mpr hvl) hne]
      exact ⟨h, rfl⟩
  | body =>
    rw [hst] at h
    have hcl : (linkRun inputs t).framer.column = bodyColumn (linkRun inputs t).framer.held := by
      rw [column, hst]
    simp only [step, hst, hcl]
    rcases h with ⟨hid, her⟩ | ⟨hbd, s, -, hkn, hsq, hlw, hfl, hwg⟩
    · have hcl : ((bodyColumn (linkRun inputs t).framer.held).flip (noise t)).control ≠ 0x01 := by
        simp [bodyColumn]
      obtain ⟨hid', her'⟩ := idle_step ready hid hcl
      exact Or.inl ⟨hid', her' her⟩
    · refine Or.inr ?_
      have hmt := @crc_match_iff deframer _ ((bodyColumn (linkRun inputs t).framer.held).flip
        (noise t))
        hkn hsq hlw
      have hcn : ¬ ((bodyColumn (linkRun inputs t).framer.held).flip (noise t)).control ≠ 0x00 :=
        fun hne => hne rfl
      simp only [DeframerRegs.step, hbd, if_neg hcn]
      refine ⟨trivial, fun hok => ?_, fun hba => ?_⟩
      · -- the checksum holds, so neither column has been hit
        obtain ⟨hx, hy⟩ := few_flips_intact hfl hwg (hmt.mp (eq_of_beq hok))
        rw [hx, flip_zero] at hkn hsq hlw
        obtain ⟨hkn', hsq', hlw'⟩ := header_fields (r := (linkRun inputs t).framer.held)
        rw [hy, flip_zero, DeframerRegs.assembled, hlw, hlw', assembledPayload_body]
        show Record.mk (deframer.kindReg) (deframer.sequenceReg) _ = _
        rw [hkn, hsq, hkn', hsq']
      · rw [bne, hba]
        exact Bool.or_true _
  | term =>
    rw [hst] at h
    have hnx : (deframer.step ((linkRun inputs t).framer.column.flip (noise t)) ready).state =
        .idle := by
      rcases h with ⟨hid, -⟩ | ⟨htr, -⟩
      · refine (idle_step _ hid ?_).1
        rw [flip_control, column, hst]
        show termColumn.control ≠ 0x01
        decide
      · simp only [DeframerRegs.step, htr]
        split
        · rfl
        · split
          · split <;> rfl
          · rfl
    cases hof : inputs.offer t <;> simp only [step, hst] <;> exact hnx

theorem not_clean_of_loads {c : Column} (ht : deframer.state = .term)
    (hl : deframer.loads c ready = [])
    (hcr : deframer.bodyCrcOk = false → deframer.crcError = true) :
    ¬ (deframer.step c ready).clean := by
  intro hc
  have hb := clean_of_step hc
  have hok : deframer.bodyCrcOk = true := by
    by_contra hbd
    have he := hcr (Bool.eq_false_iff.mpr hbd)
    rw [hb.2.1] at he
    cases he
  simp only [DeframerRegs.step, ht, hok, if_true] at hc
  simp only [DeframerRegs.loads, ht, hok, true_and, ite_eq_right_iff, cons_ne_nil,
    imp_false, not_and] at hl
  cases hv : termValid c with
  | false =>
    rw [hv] at hc
    exact absurd hc.1 (by simp)
  | true =>
    rw [hv] at hc
    have hf := hl hv
    have hr : (!deframer.recordValid || ready) = false := by
      cases hfl : deframer.recordValid <;> cases ready <;> simp_all
    rw [hr] at hc
    exact absurd hc.2.2 (by simp)

end Step

/-- The receiver of a noisy stream, against the records accepted before the cycle. -/
structure NoisyInv (inputs : LinkInputs) (noise : Nat → BitVec 64) (t : Nat) : Prop where
  follows : Follows noise t (linkRun inputs t).framer
    (receiverRun (noisyColumns inputs noise) inputs.recordReady t)
  records : loaded (noisyColumns inputs noise) inputs.recordReady t ++
    (linkRun inputs t).framer.pending <+ accepted inputs t
  lossless : (receiverRun (noisyColumns inputs noise) inputs.recordReady t).clean →
    loaded (noisyColumns inputs noise) inputs.recordReady t ++
      (linkRun inputs t).framer.pending = accepted inputs t

theorem NoisyInv.records_step (h : NoisyInv inputs noise t) :
    (receiverRun (noisyColumns inputs noise) inputs.recordReady t).loads
          (noisyColumns inputs noise t) (inputs.recordReady t) ++
        (linkRun inputs (t + 1)).framer.pending <+
      (linkRun inputs t).framer.pending ++ acceptedAt inputs t ∧
    ((receiverRun (noisyColumns inputs noise) inputs.recordReady (t + 1)).clean →
      (receiverRun (noisyColumns inputs noise) inputs.recordReady t).loads
          (noisyColumns inputs noise t) (inputs.recordReady t) ++
        (linkRun inputs (t + 1)).framer.pending =
      (linkRun inputs t).framer.pending ++ acceptedAt inputs t) := by
  set regs := receiverRun (noisyColumns inputs noise) inputs.recordReady t with hr
  have hf := h.follows
  rw [← hr] at hf
  have hq : regs.state ≠ .term → (linkRun inputs (t + 1)).framer.pending =
        (linkRun inputs t).framer.pending ++ acceptedAt inputs t →
      regs.loads (noisyColumns inputs noise t) (inputs.recordReady t) ++
          (linkRun inputs (t + 1)).framer.pending =
        (linkRun inputs t).framer.pending ++ acceptedAt inputs t := by
    intro hs hp
    rw [loads_of_not_term hs, hp, nil_append]
  unfold Follows at hf
  cases hs : (linkRun inputs t).framer.state with
  | idle =>
    rw [hs] at hf
    have heq := hq (by rw [hf]; decide) (by
      rw [((framer_state_succ _ _).2.2 (Or.inl hs)).2, pending, hs, nil_append])
    exact ⟨by rw [heq], fun _ => heq⟩
  | header =>
    rw [hs] at hf
    have heq := hq (by rw [hf]; decide) (by
      simp [framer_succ, step, pending, acceptedAt, recordReady,
        hs])
    exact ⟨by rw [heq], fun _ => heq⟩
  | body =>
    rw [hs] at hf
    have heq := hq (by rcases hf with h | h <;> rw [h.1] <;> decide) (by
      simp [framer_succ, step, pending, acceptedAt, recordReady,
        hs])
    exact ⟨by rw [heq], fun _ => heq⟩
  | term =>
    rw [hs] at hf
    have hp : (linkRun inputs t).framer.pending = [(linkRun inputs t).framer.held] := by
      rw [pending, hs]
    rw [((framer_state_succ _ _).2.2 (Or.inr hs)).2, hp]
    by_cases hl : regs.loads (noisyColumns inputs noise t) (inputs.recordReady t) = []
    · rw [hl]
      refine ⟨sublist_append_right _ _, fun hcl => ?_⟩
      exfalso
      rcases hf with ⟨-, he⟩ | ⟨ht, -, hc⟩
      · have hb := clean_of_step hcl
        rw [← hr] at hb
        rw [hb.1] at he
        cases he
      · exact not_clean_of_loads ht hl hc hcl
    · have hlo : regs.state = .term ∧ regs.bodyCrcOk = true ∧
          regs.loads (noisyColumns inputs noise t) (inputs.recordReady t) = [regs.assembled] := by
        by_cases hcn : regs.state = .term ∧ termValid (noisyColumns inputs noise t) ∧
            regs.bodyCrcOk ∧ (regs.recordValid → inputs.recordReady t)
        · exact ⟨hcn.1, hcn.2.2.1, if_pos hcn⟩
        · exact absurd (if_neg hcn) hl
      obtain ⟨ht, hok, heq⟩ := hlo
      rcases hf with ⟨hid, -⟩ | ⟨-, hin, -⟩
      · rw [hid] at ht
        cases ht
      · rw [heq, hin hok]
        exact ⟨Sublist.refl _, fun _ => rfl⟩

theorem noisyInv (hn : FewFlips inputs noise) : ∀ t, NoisyInv inputs noise t
  | 0 => ⟨rfl, Sublist.refl _, fun _ => rfl⟩
  | t + 1 => by
    have h := noisyInv hn t
    obtain ⟨hs, heq⟩ := h.records_step
    refine ⟨follows_step hn h.follows, ?_, fun hc => ?_⟩
    · rw [loaded_succ, accepted_succ, append_assoc]
      refine ((Sublist.refl _).append hs).trans ?_
      rw [← append_assoc]
      exact h.records.append (Sublist.refl _)
    · rw [loaded_succ, accepted_succ, append_assoc, heq hc, ← append_assoc,
        h.lossless (clean_mono (Nat.le_succ t) hc)]

/--
**Up to three flipped data bits in a frame never alter a record.**

Let up to three data bits of every frame be flipped, with the control bits intact. The delivered
records are in every cycle a subsequence of those sent, and as long as no error flag is raised none
is missing.
-/
theorem noise_never_alters (inputs : LinkInputs) (noise : Nat → BitVec 64)
    (hnoise : FewFlips inputs noise) (t : Nat) :
    received (noisyColumns inputs noise) inputs.recordReady t <+ accepted inputs t ∧
      ((receiverRun (noisyColumns inputs noise) inputs.recordReady t).clean →
        received (noisyColumns inputs noise) inputs.recordReady t ++
            (receiverRun (noisyColumns inputs noise) inputs.recordReady t).waiting ++
            (linkRun inputs t).framer.pending =
          accepted inputs t) := by
  have h := noisyInv hnoise t
  constructor
  · exact ( received_prefix t).sublist.trans ((sublist_append_left _ _).trans h.records)
  · intro hclean
    rw [received_waiting]
    exact h.lossless hclean

end Run

def oneRecord : LinkInputs :=
  { offer := fun t => if t = 0 then some ⟨0, 1, 10⟩ else none
    recordReady := fun _ => true }

def threeFlips (t : Nat) : BitVec 64 :=
  if t = 1 then 0x0000800001000000 else if t = 2 then 1 else 0

theorem oneRecord_quiet (k : Nat) : (linkRun oneRecord (4 + k)).framer.state = .idle := by
  induction k with
  | zero => decide
  | succ k ih =>
    have ho : oneRecord.offer (4 + k) = none := by
      simp only [oneRecord]
      rw [if_neg (by omega)]
    rw [← Nat.add_assoc, framer_succ, ho]
    simp only [step, ih]

theorem threeFlips_few : FewFlips oneRecord threeFlips := by
  intro t
  by_cases ht : t < 4
  · interval_cases t
    · exact rfl
    · show _ ≤ 3
      decide +kernel
    · trivial
    · trivial
  · obtain ⟨k, rfl⟩ : ∃ k, t = 4 + k := ⟨t - 4, by omega⟩
    rw [oneRecord_quiet]
    simp only [threeFlips]
    rw [if_neg (by omega), if_neg (by omega)]

/-- The hit record is not delivered in any other form. -/
theorem noise_never_alters_threeFlips :
    received (noisyColumns oneRecord threeFlips) oneRecord.recordReady 6 <+ [⟨0, 1, 10⟩] :=
  (noise_never_alters oneRecord threeFlips threeFlips_few 6).1

end EmuFlow.Pcs
