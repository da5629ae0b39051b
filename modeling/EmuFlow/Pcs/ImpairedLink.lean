import EmuFlow.Pcs.RecordLink

/-!
# The receiver behind an impaired link

The deframer shown any columns at all. A record is loaded into the output register by the last
column of its frame, and only then; what has been loaded is delivered or still waits there.
-/

namespace EmuFlow.Pcs

open List DeframerRegs

section Sender

variable {inputs : LinkInputs} {s : Nat}

theorem framer_succ :
    (linkRun inputs (s + 1)).framer = (linkRun inputs s).framer.step (inputs.offer s) := rfl

theorem framer_state_succ (inputs : LinkInputs) (s : Nat) :
    ((linkRun inputs s).framer.state = .header → (linkRun inputs (s + 1)).framer.state = .body) ∧
    ((linkRun inputs s).framer.state = .body → (linkRun inputs (s + 1)).framer.state = .term) ∧
    ((linkRun inputs s).framer.state = .idle ∨ (linkRun inputs s).framer.state = .term →
      ((linkRun inputs (s + 1)).framer.state = .idle ∨
        (linkRun inputs (s + 1)).framer.state = .header) ∧
      (linkRun inputs (s + 1)).framer.pending = acceptedAt inputs s) := by
  rw [framer_succ]
  refine ⟨?_, ?_, ?_⟩
  · intro h
    simp only [FramerRegs.step, h]
  · intro h
    simp only [FramerRegs.step, h]
  · rintro (h | h) <;> cases ho : inputs.offer s <;>
      simp [FramerRegs.step, FramerRegs.pending, acceptedAt, FramerRegs.recordReady, h, ho]

end Sender

/-! ## one column -/

section Column

variable (regs : DeframerRegs) (c : Column) (ready : Bool)

def DeframerRegs.loads : List Record :=
  if regs.state = .term ∧ termValid c ∧ regs.bodyCrcOk ∧ (regs.recordValid → ready) then
    [regs.assembled]
  else []

variable {regs c ready}

theorem loads_of_not_term (h : regs.state ≠ .term) : regs.loads c ready = [] :=
  if_neg fun hl => h hl.1

theorem step_idle_of_invalid (h : regs.state = .idle) (hh : headerValid c = false)
    (hi : c ≠ idleColumn) :
    regs.step c ready = { regs.consume ready with framingError := true } := by
  simp [step, h, hh, hi]

theorem waiting_of_not_term (h : regs.state ≠ .term) :
    (regs.step c ready).waiting = (regs.consume ready).waiting := by
  cases hs : regs.state with
  | idle =>
    simp only [step, hs]
    split
    · rfl
    · split <;> rfl
  | body =>
    simp only [step, hs]
    split <;> rfl
  | term => exact absurd hs h

theorem waiting_of_term (h : regs.state = .term) : (regs.step c ready).waiting =
      if regs.loads c ready = [] then (regs.consume ready).waiting else regs.loads c ready := by
  simp only [step, loads, h, true_and]
  cases ht : termValid c with
  | false => rfl
  | true =>
    cases hc : regs.bodyCrcOk with
    | false => rfl
    | true =>
      cases hv : regs.recordValid <;> cases ready <;>
        simp [waiting, consume, assembled, hv]

theorem waiting_step : regs.waiting ++ regs.loads c ready =
    (if regs.recordValid && ready then [regs.record] else []) ++ (regs.step c ready).waiting := by
  rw [waiting_consume ready, append_assoc]
  refine congrArg _ ?_
  by_cases hs : regs.state = .term
  · rw [waiting_of_term hs]
    by_cases hl : regs.loads c ready = []
    · rw [if_pos hl, hl, append_nil]
    · -- a load needs a free output
      have hf : (regs.consume ready).waiting = [] := by
        have hr : regs.recordValid = true → ready = true := by
          by_contra hr
          exact hl (if_neg fun h => hr h.2.2.2)
        cases hv : regs.recordValid with
        | false => simp [waiting, consume, hv]
        | true => simp [waiting, consume, hr hv]
      rw [if_neg hl, hf, nil_append]
  · rw [waiting_of_not_term hs, loads_of_not_term hs, append_nil]

theorem clean_of_step (h : (regs.step c ready).clean) : regs.clean := by
  unfold clean at h ⊢
  cases hs : regs.state with
  | idle =>
    simp only [step, hs] at h
    split at h
    · exact h
    · split at h
      · exact absurd h.1 (by simp)
      · exact h
  | body =>
    simp only [step, hs] at h
    split at h
    · exact absurd h.1 (by simp)
    · refine ⟨h.1, ?_, h.2.2⟩
      exact (Bool.or_eq_false_iff.mp h.2.1).1
  | term =>
    simp only [step, hs] at h
    split at h
    · exact absurd h.1 (by simp)
    · split at h
      · split at h
        · exact h
        · exact absurd h.2.2 (by simp)
      · exact h

end Column

/-! ## runs -/

section Run

variable (columns : Nat → Column) (recordReady : Nat → Bool)

/-- The deframer at the start of a cycle, when it is shown `columns`. -/
def receiverRun : Nat → DeframerRegs
  | 0 => .reset
  | t + 1 => (receiverRun t).step (columns t) (recordReady t)

def receivedAt (t : Nat) : List Record :=
  if (receiverRun columns recordReady t).recordValid && recordReady t then
    [(receiverRun columns recordReady t).record]
  else []

def received (t : Nat) : List Record := (List.range t).flatMap (receivedAt columns recordReady)

def loaded (t : Nat) : List Record :=
  (List.range t).flatMap fun s =>
    (receiverRun columns recordReady s).loads (columns s) (recordReady s)

variable {columns recordReady} {t : Nat}

theorem received_succ : received columns recordReady (t + 1) =
    received columns recordReady t ++ receivedAt columns recordReady t := by
  simp [received, range_succ]

theorem loaded_succ : loaded columns recordReady (t + 1) = loaded columns recordReady t ++
    (receiverRun columns recordReady t).loads (columns t) (recordReady t) := by
  simp [loaded, range_succ]

theorem received_waiting (t : Nat) :
    received columns recordReady t ++ (receiverRun columns recordReady t).waiting =
      loaded columns recordReady t := by
  induction t with
  | zero => rfl
  | succ t ih =>
    rw [received_succ, loaded_succ, ← ih, append_assoc, append_assoc, waiting_step]
    rfl

/-- What is received is part of what was loaded, in its order. -/
theorem received_prefix (t : Nat) :
    received columns recordReady t <+: loaded columns recordReady t :=
  ⟨_, received_waiting t⟩

theorem clean_mono {s : Nat} (hle : s ≤ t) (h : (receiverRun columns recordReady t).clean) :
    (receiverRun columns recordReady s).clean := by
  induction t, hle using Nat.le_induction with
  | base => exact h
  | succ t _ ih => exact ih (clean_of_step h)

end Run

end EmuFlow.Pcs
