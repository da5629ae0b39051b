import Mathlib.Tactic

/-!
# Records on an XGMII link

`emuflow_xgmii_record_framer.sv` and `emuflow_xgmii_record_deframer.sv`: a record is sent in three
columns, a header, a body and a terminator, and put together again at the other end.
-/

namespace EmuFlow.Pcs

open BitVec

structure Record where
  kind : BitVec 2
  sequence : BitVec 16
  payload : BitVec 64

/-- One column of the interface: eight data bytes and their control bits. -/
structure Column where
  data : BitVec 64
  control : BitVec 8
  deriving DecidableEq

def XGMII_IDLE : BitVec 8 := 0x07
def XGMII_START : BitVec 8 := 0xfb
def XGMII_TERM : BitVec 8 := 0xfd
def PROTOCOL_MAGIC : BitVec 8 := 0xe1
def PROTOCOL_VERSION : BitVec 8 := 0x01

/-! ## bytes -/

/-- `value[8 * i + 7 : 8 * i]`. -/
def byte {w : Nat} (value : BitVec w) (i : Nat) : BitVec 8 := value.extractLsb' (8 * i) 8

def word64 (b7 b6 b5 b4 b3 b2 b1 b0 : BitVec 8) : BitVec 64 :=
  b7 ++ b6 ++ b5 ++ b4 ++ b3 ++ b2 ++ b1 ++ b0

def word16 (high low : BitVec 8) : BitVec 16 := high ++ low

section Bytes

variable {b7 b6 b5 b4 b3 b2 b1 b0 : BitVec 8}

theorem byte_append_zero {w : Nat} (x : BitVec w) (b : BitVec 8) : byte (x ++ b) 0 = b := by
  apply eq_of_getLsbD_eq
  intro i hi
  rw [byte, getLsbD_extractLsb', getLsbD_append, if_pos (by omega),
    decide_eq_true hi, Bool.true_and]
  congr 1
  omega

theorem byte_append_succ {w : Nat} (x : BitVec w) (b : BitVec 8) (i : Nat) :
    byte (x ++ b) (i + 1) = byte x i := by
  apply eq_of_getLsbD_eq
  intro j hj
  rw [byte, byte, getLsbD_extractLsb', getLsbD_append, if_neg (by omega),
    getLsbD_extractLsb']
  congr 2
  omega

theorem byte_zero (b : BitVec 8) : byte b 0 = b := by
  apply eq_of_getLsbD_eq
  intro i hi
  rw [byte, getLsbD_extractLsb', decide_eq_true hi, Bool.true_and]
  congr 1
  omega

@[simp] theorem byte_word64 :
    byte (word64 b7 b6 b5 b4 b3 b2 b1 b0) 0 = b0 ∧ byte (word64 b7 b6 b5 b4 b3 b2 b1 b0) 1 = b1 ∧
    byte (word64 b7 b6 b5 b4 b3 b2 b1 b0) 2 = b2 ∧ byte (word64 b7 b6 b5 b4 b3 b2 b1 b0) 3 = b3 ∧
    byte (word64 b7 b6 b5 b4 b3 b2 b1 b0) 4 = b4 ∧ byte (word64 b7 b6 b5 b4 b3 b2 b1 b0) 5 = b5 ∧
    byte (word64 b7 b6 b5 b4 b3 b2 b1 b0) 6 = b6 ∧ byte (word64 b7 b6 b5 b4 b3 b2 b1 b0) 7
      = b7 := by
  unfold word64
  refine ⟨byte_append_zero _ _, ?_, ?_, ?_, ?_, ?_, ?_, ?_⟩
  · exact (byte_append_succ _ _ 0).trans (byte_append_zero _ _)
  all_goals refine (byte_append_succ _ _ _).trans ((byte_append_succ _ _ _).trans ?_)
  · exact byte_append_zero _ _
  · exact (byte_append_succ _ _ 0).trans (byte_append_zero _ _)
  all_goals refine (byte_append_succ _ _ _).trans ((byte_append_succ _ _ _).trans ?_)
  · exact byte_append_zero _ _
  · exact (byte_append_succ _ _ 0).trans (byte_append_zero _ _)
  all_goals refine (byte_append_succ _ _ _).trans ((byte_append_succ _ _ _).trans ?_)
  · exact byte_append_zero _ _
  · exact (byte_append_succ _ _ 0).trans (byte_zero _)

theorem byte_word16 {high low : BitVec 8} :
    byte (word16 high low) 0 = low ∧ byte (word16 high low) 1 = high :=
  ⟨byte_append_zero _ _, (byte_append_succ _ _ 0).trans (byte_zero _)⟩

theorem word64_bytes (x : BitVec 64) :
    word64 (byte x 7) (byte x 6) (byte x 5) (byte x 4) (byte x 3) (byte x 2) (byte x 1) (byte x 0) =
      x := by
  apply eq_of_getLsbD_eq
  intro i hi
  simp only [byte, word64, getLsbD_extractLsb', getLsbD_append]
  repeat' split
  all_goals
    rw [decide_eq_true (by omega), Bool.true_and]
    congr 1
    omega

theorem word16_bytes (x : BitVec 16) : word16 (byte x 1) (byte x 0) = x := by
  apply eq_of_getLsbD_eq
  intro i hi
  simp only [byte, word16, getLsbD_extractLsb', getLsbD_append]
  split <;>
  · rw [decide_eq_true (by omega), Bool.true_and]
    congr 1
    omega

end Bytes

/-- One round of `crc16_ccitt`: the remainder takes in the next bit. -/
def crcRound (crc : BitVec 16) (bit : Bool) : BitVec 16 :=
  if crc.getLsbD 15 ^^ bit then (crc <<< 1) ^^^ 0x1021 else crc <<< 1

def crc16Ccitt (value : BitVec 88) : BitVec 16 :=
  ((List.range 88).reverse.map value.getLsbD).foldl crcRound 0xffff

/-- `{6'b0, kind}`. -/
def kindByte (kind : BitVec 2) : BitVec 8 := 0#6 ++ kind

/-- The checksum of `{6'b0, kind, sequence, payload}`. -/
def recordCrc (r : Record) : BitVec 16 := crc16Ccitt (kindByte r.kind ++ r.sequence ++ r.payload)

/-! ## the sender -/

inductive FramerState
  | idle | header | body | term
  deriving DecidableEq

structure FramerRegs where
  state : FramerState
  held : Record

def FramerRegs.reset : FramerRegs := { state := .idle, held := ⟨0, 0, 0⟩ }

def FramerRegs.recordReady (regs : FramerRegs) : Bool :=
  regs.state == .idle || regs.state == .term

def idleColumn : Column :=
  { data := word64 XGMII_IDLE XGMII_IDLE XGMII_IDLE XGMII_IDLE XGMII_IDLE XGMII_IDLE XGMII_IDLE
      XGMII_IDLE
    control := 0xff }

def headerColumn (r : Record) : Column :=
  { data := word64 (byte r.payload 1) (byte r.payload 0) (byte r.sequence 1) (byte r.sequence 0)
      (kindByte r.kind) PROTOCOL_VERSION PROTOCOL_MAGIC XGMII_START
    control := 0x01 }

def bodyColumn (r : Record) : Column :=
  { data := word64 (byte (recordCrc r) 1) (byte (recordCrc r) 0) (byte r.payload 7)
      (byte r.payload 6) (byte r.payload 5) (byte r.payload 4) (byte r.payload 3) (byte r.payload 2)
    control := 0x00 }

def termColumn : Column :=
  { data := word64 XGMII_IDLE XGMII_IDLE XGMII_IDLE XGMII_IDLE XGMII_IDLE XGMII_IDLE XGMII_IDLE
      XGMII_TERM
    control := 0xff }

/-- `xgmii_txd` and `xgmii_txc`. -/
def FramerRegs.column (regs : FramerRegs) : Column :=
  match regs.state with
  | .idle => idleColumn
  | .header => headerColumn regs.held
  | .body => bodyColumn regs.held
  | .term => termColumn

/-- One rising clock edge with `reset` low; `offer` is the record at the port, if it is valid. -/
def FramerRegs.step (regs : FramerRegs) (offer : Option Record) : FramerRegs :=
  match regs.state with
  | .idle =>
    match offer with
    | some r => { state := .header, held := r }
    | none => regs
  | .header => { regs with state := .body }
  | .body => { regs with state := .term }
  | .term =>
    match offer with
    | some r => { state := .header, held := r }
    | none => { regs with state := .idle }

/-! ## the receiver -/

inductive DeframerState
  | idle | body | term
  deriving DecidableEq

structure DeframerRegs where
  state : DeframerState
  kindReg : BitVec 2
  sequenceReg : BitVec 16
  payloadLowReg : BitVec 16
  payloadReg : BitVec 64
  bodyCrcOk : Bool
  recordValid : Bool
  record : Record
  framingError : Bool
  crcError : Bool
  overflowError : Bool

def DeframerRegs.reset : DeframerRegs :=
  { state := .idle, kindReg := 0, sequenceReg := 0, payloadLowReg := 0, payloadReg := 0
    bodyCrcOk := false, recordValid := false, record := ⟨0, 0, 0⟩
    framingError := false, crcError := false, overflowError := false }

def headerValid (c : Column) : Bool :=
  c.control == 0x01 && byte c.data 0 == XGMII_START && byte c.data 1 == PROTOCOL_MAGIC &&
    byte c.data 2 == PROTOCOL_VERSION && c.data.extractLsb' 26 6 == 0

def termValid (c : Column) : Bool :=
  c.control == 0xff && byte c.data 0 == XGMII_TERM &&
    (byte c.data 1 == XGMII_IDLE && byte c.data 2 == XGMII_IDLE && byte c.data 3 == XGMII_IDLE &&
      byte c.data 4 == XGMII_IDLE && byte c.data 5 == XGMII_IDLE && byte c.data 6 == XGMII_IDLE &&
      byte c.data 7 == XGMII_IDLE)

def assembledPayload (payloadLowReg : BitVec 16) (c : Column) : BitVec 64 :=
  word64 (byte c.data 5) (byte c.data 4) (byte c.data 3) (byte c.data 2) (byte c.data 1)
    (byte c.data 0) (byte payloadLowReg 1) (byte payloadLowReg 0)

def receivedCrc (c : Column) : BitVec 16 := word16 (byte c.data 7) (byte c.data 6)

/-- The record that `payload_reg` completes. -/
def DeframerRegs.assembled (regs : DeframerRegs) : Record :=
  { kind := regs.kindReg, sequence := regs.sequenceReg, payload := regs.payloadReg }

def DeframerRegs.consume (regs : DeframerRegs) (recordReady : Bool) : DeframerRegs :=
  { regs with recordValid := regs.recordValid && !recordReady }

/-- One rising clock edge with `reset` low. -/
def DeframerRegs.step (regs : DeframerRegs) (c : Column) (recordReady : Bool) : DeframerRegs :=
  let next := regs.consume recordReady
  match regs.state with
  | .idle =>
    if headerValid c then
      { next with
        kindReg := c.data.extractLsb' 24 2
        sequenceReg := word16 (byte c.data 5) (byte c.data 4)
        payloadLowReg := word16 (byte c.data 7) (byte c.data 6)
        state := .body }
    else if c ≠ idleColumn then { next with framingError := true }
    else next
  | .body =>
    if c.control ≠ 0x00 then { next with framingError := true, state := .idle }
    else
      let payload := assembledPayload regs.payloadLowReg c
      let expected := recordCrc
        { kind := regs.kindReg, sequence := regs.sequenceReg, payload := payload }
      { next with
        payloadReg := payload
        bodyCrcOk := receivedCrc c == expected
        crcError := regs.crcError || receivedCrc c != expected
        state := .term }
  | .term =>
    if !termValid c then { next with framingError := true, state := .idle }
    else if regs.bodyCrcOk then
      if !regs.recordValid || recordReady then
        { next with recordValid := true, record := regs.assembled, state := .idle }
      else { next with overflowError := true, state := .idle }
    else { next with state := .idle }

/-! ## the columns of one record -/

variable {r : Record} {regs : DeframerRegs}

theorem kindByte_fields (kind : BitVec 2) :
    (kindByte kind).extractLsb' 2 6 = 0 ∧ (kindByte kind).extractLsb' 0 2 = kind := by
  decide +revert

theorem extractLsb'_byte {w i k n : Nat} (x : BitVec w) (h : k + n ≤ 8) :
    x.extractLsb' (8 * i + k) n = (byte x i).extractLsb' k n := by
  apply eq_of_getLsbD_eq
  intro j hj
  rw [byte, getLsbD_extractLsb', getLsbD_extractLsb', getLsbD_extractLsb',
    decide_eq_true (show k + j < 8 by omega), Bool.true_and, Nat.add_assoc]

@[simp] theorem headerValid_header : headerValid (headerColumn r) = true := by
  have hz : (headerColumn r).data.extractLsb' 26 6 = 0 := by
    rw [show 26 = 8 * 3 + 2 by rfl, extractLsb'_byte _ (by decide)]
    simp [headerColumn, (kindByte_fields r.kind).1]
  rw [headerValid, hz]
  simp [headerColumn]

theorem header_fields : (headerColumn r).data.extractLsb' 24 2 = r.kind ∧
      word16 (byte (headerColumn r).data 5) (byte (headerColumn r).data 4) = r.sequence ∧
      word16 (byte (headerColumn r).data 7) (byte (headerColumn r).data 6) =
        word16 (byte r.payload 1) (byte r.payload 0) := by
  refine ⟨?_, ?_, ?_⟩
  · rw [show 24 = 8 * 3 + 0 by rfl, extractLsb'_byte _ (by decide)]
    simp [headerColumn, (kindByte_fields r.kind).2]
  · simp [headerColumn, word16_bytes]
  · simp [headerColumn]

@[simp] theorem assembledPayload_body :
    assembledPayload (word16 (byte r.payload 1) (byte r.payload 0)) (bodyColumn r) = r.payload := by
  simp [assembledPayload, bodyColumn, byte_word16, word64_bytes]

@[simp] theorem receivedCrc_body : receivedCrc (bodyColumn r) = recordCrc r := by
  simp [receivedCrc, bodyColumn, word16_bytes]

@[simp] theorem termValid_term : termValid termColumn = true := by
  simp [termValid, termColumn]

@[simp] theorem headerValid_idle : headerValid idleColumn = false := by
  simp [headerValid, idleColumn]

theorem step_idleColumn {ready : Bool} (h : regs.state = .idle) :
    regs.step idleColumn ready = regs.consume ready := by
  simp [DeframerRegs.step, h]

theorem step_headerColumn {ready : Bool} (h : regs.state = .idle) :
    regs.step (headerColumn r) ready =
      { regs.consume ready with
        kindReg := r.kind, sequenceReg := r.sequence
        payloadLowReg := word16 (byte r.payload 1) (byte r.payload 0), state := .body } := by
  obtain ⟨hk, hs, hl⟩ := header_fields (r := r)
  simp only [DeframerRegs.step, h, headerValid_header, if_true, hk, hs, hl]

theorem step_bodyColumn {ready : Bool} (h : regs.state = .body) (hk : regs.kindReg = r.kind)
    (hs : regs.sequenceReg = r.sequence)
    (hl : regs.payloadLowReg = word16 (byte r.payload 1) (byte r.payload 0)) :
    regs.step (bodyColumn r) ready =
      { regs.consume ready with payloadReg := r.payload, bodyCrcOk := true, state := .term } := by
  have hc : ¬ (bodyColumn r).control ≠ 0x00 := fun hne => hne rfl
  simp only [DeframerRegs.step, h, if_neg hc, hl, assembledPayload_body, hk, hs,
    receivedCrc_body, bne_self_eq_false, Bool.or_false, beq_self_eq_true]
  rfl

theorem step_termColumn {ready : Bool} (h : regs.state = .term) (hc : regs.bodyCrcOk = true)
    (hf : regs.recordValid = true → ready = true) :
    regs.step termColumn ready =
      { regs.consume ready with recordValid := true, record := regs.assembled, state :=
        .idle } := by
  have hr : (!regs.recordValid || ready) = true := by
    cases hv : regs.recordValid with
    | false => rfl
    | true => simp [hf hv]
  simp [DeframerRegs.step, h, hc, hr]

end EmuFlow.Pcs
