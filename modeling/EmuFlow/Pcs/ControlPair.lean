import EmuFlow.Pcs.Xgmii

/-!
# The control endpoint of a runtime-sync edge

`emuflow_runtime_sync_control_endpoint.sv`. The parent of a tree edge sends START and receives
READY; the child sends READY and receives START. An endpoint sends on a change only, and numbers its
records.
-/

namespace EmuFlow.Pcs

def KIND_READY : BitVec 2 := 0b01
def KIND_START : BitVec 2 := 0b10
def KIND_FAULT : BitVec 2 := 0b11

/-- The input ports besides clock and reset; `rx` is the control record at the port, if valid. -/
structure EndpointInputs where
  localSubtreeReady : Bool
  localStartValid : Bool
  localStartEpoch : BitVec 32
  txControlReady : Bool
  rx : Option Record

structure EndpointRegs where
  remoteSubtreeReady : Bool
  remoteStartValid : Bool
  remoteStartEpoch : BitVec 32
  txControlValid : Bool
  txControl : Record
  nextTxSequence : BitVec 16
  expectedRxSequence : BitVec 16
  lastReadySent : Bool
  readySentValid : Bool
  startSent : Bool
  protocolError : Bool

def EndpointRegs.reset : EndpointRegs :=
  { remoteSubtreeReady := false, remoteStartValid := false, remoteStartEpoch := 0
    txControlValid := false, txControl := ⟨KIND_READY, 0, 0⟩
    nextTxSequence := 0, expectedRxSequence := 0
    lastReadySent := false, readySentValid := false, startSent := false, protocolError := false }

/-- `{63'b0, local_subtree_ready}`. -/
def readyPayload (ready : Bool) : BitVec 64 := (BitVec.ofBool ready).setWidth 64

/-- `{32'b0, local_start_epoch}`. -/
def startPayload (epoch : BitVec 32) : BitVec 64 := epoch.setWidth 64

@[simp] theorem readyPayload_bit (ready : Bool) : (readyPayload ready).getLsbD 0 = ready := by
  cases ready <;> decide

@[simp] theorem startPayload_epoch (epoch : BitVec 32) :
    (startPayload epoch).setWidth 32 = epoch := by
  simp [startPayload]

variable (regs : EndpointRegs) (inputs : EndpointInputs)

def EndpointRegs.txFree : Bool := !regs.txControlValid || inputs.txControlReady

def EndpointRegs.hasNews (roleParent : Bool) : Bool :=
  if roleParent then inputs.localStartValid && !regs.startSent
  else !regs.readySentValid || inputs.localSubtreeReady != regs.lastReadySent

def EndpointRegs.news (roleParent : Bool) : Record :=
  if roleParent then
    { kind := KIND_START, sequence := regs.nextTxSequence
      payload := startPayload inputs.localStartEpoch }
  else
    { kind := KIND_READY, sequence := regs.nextTxSequence
      payload := readyPayload inputs.localSubtreeReady }

def EndpointRegs.send (roleParent : Bool) : EndpointRegs :=
  let sends := regs.hasNews inputs roleParent && regs.txFree inputs
  { regs with
    txControlValid := sends || (regs.txControlValid && !inputs.txControlReady)
    txControl := if sends then regs.news inputs roleParent else regs.txControl
    nextTxSequence := if sends then regs.nextTxSequence + 1 else regs.nextTxSequence
    startSent :=
      if roleParent then sends || (inputs.localStartValid && regs.startSent) else regs.startSent
    lastReadySent :=
      if !roleParent && sends then inputs.localSubtreeReady else regs.lastReadySent
    readySentValid := regs.readySentValid || (!roleParent && sends) }

def EndpointRegs.receive (roleParent : Bool) : Option Record → EndpointRegs
  | none => { regs with remoteStartValid := false }
  | some r =>
    let seen : EndpointRegs :=
      { regs with
        remoteStartValid := false
        protocolError := regs.protocolError || r.sequence != regs.expectedRxSequence
        expectedRxSequence := r.sequence + 1 }
    if roleParent then
      if r.kind = KIND_READY then { seen with remoteSubtreeReady := r.payload.getLsbD 0 }
      else if r.kind = KIND_FAULT then
        { seen with remoteSubtreeReady := false, protocolError := true }
      else { seen with protocolError := true }
    else
      if r.kind = KIND_START then
        { seen with remoteStartValid := true, remoteStartEpoch := r.payload.setWidth 32 }
      else { seen with protocolError := true }

/-- One rising clock edge; `linkReady` low holds the endpoint in reset. -/
def EndpointRegs.step (roleParent linkReady : Bool) : EndpointRegs :=
  if linkReady then (regs.send inputs roleParent).receive roleParent inputs.rx else .reset

def EndpointRegs.leaving : List Record :=
  if regs.txControlValid && inputs.txControlReady then [regs.txControl] else []

def EndpointRegs.outgoing : List Record :=
  if regs.txControlValid then [regs.txControl] else []

variable {regs inputs} {roleParent : Bool}

theorem leaving_outgoing :
    regs.leaving inputs ++ (regs.send inputs roleParent).outgoing = regs.outgoing ++
      (if regs.hasNews inputs roleParent && regs.txFree inputs then [regs.news inputs roleParent]
        else []) := by
  unfold EndpointRegs.leaving EndpointRegs.outgoing EndpointRegs.send EndpointRegs.txFree
  cases regs.hasNews inputs roleParent <;> cases regs.txControlValid <;>
    cases inputs.txControlReady <;> simp

@[simp] theorem outgoing_receive {rx : Option Record} :
    (regs.receive roleParent rx).outgoing = regs.outgoing := by
  unfold EndpointRegs.receive
  cases rx with
  | none => rfl
  | some r => dsimp only; split <;> (repeat' split) <;> rfl

/-!
## The two control endpoints of a tree edge

The parent's and the child's control endpoint, each in reset until its own `link_ready`, with a
lossless ordered channel in each direction. An endpoint takes every record it is shown, also in
reset.

* `PairInv` — what is in flight continues what the receiver has seen, and ends with what the sender
  has said last
* `quiescent_agree` — the two sides agree once the channels are quiet, if no record was shown to an
  endpoint in reset and a release that was sent is held
-/

open List

/-- Both endpoints, the levels they transmit, and the records between them. -/
structure PairState where
  parent : EndpointRegs
  child : EndpointRegs
  parentLinkReady : Bool
  childLinkReady : Bool
  /-- The child's `local_subtree_ready`. -/
  subtreeReady : Bool
  /-- The parent's `local_start_valid` and `local_start_epoch`. -/
  startValid : Bool
  startEpoch : BitVec 32
  toParent : List Record
  toChild : List Record
  /-- The epoch of the last START pulse at the child. -/
  childStart : Option (BitVec 32)

def PairState.initial : PairState :=
  { parent := .reset, child := .reset, parentLinkReady := false, childLinkReady := false
    subtreeReady := false, startValid := false, startEpoch := 0
    toParent := [], toChild := [], childStart := none }

/-- What can happen next: a link comes up, a level changes, or an endpoint is clocked, with a
channel that is ready or not and shows its next record or not. -/
inductive PairAction
  | parentLinkUp
  | childLinkUp
  | setReady (ready : Bool)
  | setRelease (valid : Bool) (epoch : BitVec 32)
  | clockParent (txReady deliver : Bool)
  | clockChild (txReady deliver : Bool)

def shown (deliver : Bool) (channel : List Record) : Option Record × List Record :=
  if deliver then (channel.head?, channel.tail) else (none, channel)

def PairState.parentInputs (s : PairState) (txReady deliver : Bool) : EndpointInputs :=
  { localSubtreeReady := false, localStartValid := s.startValid, localStartEpoch := s.startEpoch
    txControlReady := txReady, rx := (shown deliver s.toParent).1 }

def PairState.childInputs (s : PairState) (txReady deliver : Bool) : EndpointInputs :=
  { localSubtreeReady := s.subtreeReady, localStartValid := false, localStartEpoch := 0
    txControlReady := txReady, rx := (shown deliver s.toChild).1 }

def PairState.step (s : PairState) : PairAction → PairState
  | .parentLinkUp => { s with parentLinkReady := true }
  | .childLinkUp => { s with childLinkReady := true }
  | .setReady ready => { s with subtreeReady := ready }
  | .setRelease valid epoch => { s with startValid := valid, startEpoch := epoch }
  | .clockParent txReady deliver =>
    { s with
      parent := s.parent.step (s.parentInputs txReady deliver) true s.parentLinkReady
      toChild := s.toChild ++ s.parent.leaving (s.parentInputs txReady deliver)
      toParent := (shown deliver s.toParent).2 }
  | .clockChild txReady deliver =>
    let child := s.child.step (s.childInputs txReady deliver) false s.childLinkReady
    { s with
      child := child
      toParent := s.toParent ++ s.child.leaving (s.childInputs txReady deliver)
      toChild := (shown deliver s.toChild).2
      childStart := if child.remoteStartValid then some child.remoteStartEpoch else s.childStart }

def PairState.run (s : PairState) (actions : List PairAction) : PairState :=
  actions.foldl PairState.step s

/-! ## what is asked of a run -/

def PairState.Quiescent (s : PairState) : Prop :=
  s.parentLinkReady = true ∧ s.childLinkReady = true ∧ s.toParent = [] ∧ s.toChild = [] ∧
    s.parent.txControlValid = false ∧ s.child.txControlValid = false ∧
    s.parent.hasNews (s.parentInputs true false) true = false ∧
    s.child.hasNews (s.childInputs true false) false = false

instance (s : PairState) : Decidable s.Quiescent := inferInstanceAs (Decidable (_ ∧ _))

/-- The two sides have the same view, and neither has raised an error. -/
def PairState.Agree (s : PairState) : Prop :=
  s.parent.remoteSubtreeReady = s.subtreeReady ∧
    s.childStart = (if s.startValid then some s.startEpoch else none) ∧
    s.parent.protocolError = false ∧ s.child.protocolError = false

instance (s : PairState) : Decidable s.Agree := inferInstanceAs (Decidable (_ ∧ _))

def PairState.Careful (s : PairState) : PairAction → Prop
  | .clockParent _ deliver => deliver = true → s.toParent ≠ [] → s.parentLinkReady = true
  | .clockChild _ deliver => deliver = true → s.toChild ≠ [] → s.childLinkReady = true
  | .setRelease valid epoch => s.parent.startSent = true → valid = true ∧ epoch = s.startEpoch
  | _ => True

def PairState.CarefulRun : PairState → List PairAction → Prop
  | _, [] => True
  | s, a :: actions => s.Careful a ∧ (s.step a).CarefulRun actions

/-! ## one direction -/

section Stream

variable {β : Type} {kind : BitVec 2} {value : Record → β} {expected next : BitVec 16}
  {seen said : β} {inFlight : List Record} {r : Record}

def Numbered : BitVec 16 → List Record → BitVec 16 → Prop
  | expected, [], next => expected = next
  | expected, r :: inFlight, next => r.sequence = expected ∧ Numbered (expected + 1) inFlight next

theorem Numbered.push (h : Numbered expected inFlight next) (hr : r.sequence = next) :
    Numbered expected (inFlight ++ [r]) (next + 1) := by
  induction inFlight generalizing expected with
  | nil =>
    have hn : expected = next := h
    rw [hn]
    exact ⟨hr, rfl⟩
  | cons q inFlight ih => exact ⟨h.1, ih h.2⟩

/-- The records between a sender and a receiver: the receiver has seen `seen` and expects the number
`expected`, the sender has said `said` and goes on with `next`. -/
structure Stream (kind : BitVec 2) (value : Record → β) (expected next : BitVec 16) (seen said : β)
    (inFlight : List Record) : Prop where
  kinds : ∀ r ∈ inFlight, r.kind = kind
  numbered : Numbered expected inFlight next
  last : inFlight.foldl (fun _ r => value r) seen = said

theorem Stream.push (h : Stream kind value expected next seen said inFlight) (hk : r.kind = kind)
    (hr : r.sequence = next) :
    Stream kind value expected (next + 1) seen (value r) (inFlight ++ [r]) := by
  refine ⟨?_, h.numbered.push hr, ?_⟩
  · intro q hq
    rcases List.mem_append.mp hq with hq | hq
    · exact h.kinds q hq
    · rw [mem_singleton.mp hq]
      exact hk
  · rw [foldl_append]
    rfl

theorem Stream.pop (h : Stream kind value expected next seen said (r :: inFlight)) :
    r.kind = kind ∧ r.sequence = expected ∧
      Stream kind value (expected + 1) next (value r) said inFlight :=
  ⟨h.kinds r mem_cons_self, h.numbered.1,
    fun q hq => h.kinds q (mem_cons_of_mem r hq), h.numbered.2, h.last⟩

end Stream

def readyLevel (r : Record) : Bool := r.payload.getLsbD 0

def startWord (r : Record) : Option (BitVec 32) := some (r.payload.setWidth 32)

def ReadyStream (parent child : EndpointRegs) (inFlight : List Record) : Prop :=
  Stream KIND_READY readyLevel parent.expectedRxSequence child.nextTxSequence
    parent.remoteSubtreeReady child.lastReadySent inFlight

def StartStream (parent child : EndpointRegs) (childStart said : Option (BitVec 32))
    (inFlight : List Record) : Prop :=
  Stream KIND_START startWord child.expectedRxSequence parent.nextTxSequence childStart said
    inFlight

section Send

variable {parent child : EndpointRegs} {inputs : EndpointInputs} {channel : List Record}

theorem inFlight_send {roleParent : Bool} :
    channel ++ child.leaving inputs ++ (child.send inputs roleParent).outgoing =
      (channel ++ child.outgoing) ++ (if child.hasNews inputs roleParent && child.txFree inputs then
          [child.news inputs roleParent] else []) := by
  rw [append_assoc, leaving_outgoing, append_assoc]

variable (inputs) in
theorem ReadyStream.send (h : ReadyStream parent child (channel ++ child.outgoing)) :
    ReadyStream parent (child.send inputs false)
      (channel ++ child.leaving inputs ++ (child.send inputs false).outgoing) := by
  rw [inFlight_send]
  unfold ReadyStream at h ⊢
  cases hs : child.hasNews inputs false && child.txFree inputs with
  | false => simpa [EndpointRegs.send, hs] using h
  | true =>
    have hp := h.push (r := child.news inputs false) rfl rfl
    have hl : readyLevel (child.news inputs false) = inputs.localSubtreeReady :=
      readyPayload_bit _
    rw [hl] at hp
    simpa [EndpointRegs.send, hs] using hp

variable (inputs) in
theorem StartStream.send {childStart : Option (BitVec 32)}
    (hh : parent.startSent = true → inputs.localStartValid = true)
    (h : StartStream parent child childStart
      (if parent.startSent then some inputs.localStartEpoch else none)
      (channel ++ parent.outgoing)) : StartStream (parent.send inputs true) child childStart
      (if (parent.send inputs true).startSent then some inputs.localStartEpoch else none)
      (channel ++ parent.leaving inputs ++ (parent.send inputs true).outgoing) := by
  rw [inFlight_send]
  unfold StartStream at h ⊢
  cases hsn : parent.hasNews inputs true && parent.txFree inputs with
  | false =>
    have hst : (parent.send inputs true).startSent = parent.startSent := by
      cases hs : parent.startSent with
      | false => simp [EndpointRegs.send, hsn, hs]
      | true => simp [EndpointRegs.send, hs, hh hs]
    rw [hst]
    simpa [EndpointRegs.send, hsn] using h
  | true =>
    have hp := h.push (r := parent.news inputs true) rfl rfl
    have hw : startWord (parent.news inputs true) = some inputs.localStartEpoch :=
      congrArg some (startPayload_epoch _)
    rw [hw] at hp
    simpa [EndpointRegs.send, hsn] using hp

end Send

section Receive

variable {parent child : EndpointRegs} {channel out : List Record} {deliver : Bool}

variable (deliver) in
theorem ReadyStream.receive (h : ReadyStream parent child (channel ++ out)) :
    ReadyStream (parent.receive true (shown deliver channel).1) child
        ((shown deliver channel).2 ++ out) ∧
      (parent.receive true (shown deliver channel).1).protocolError = parent.protocolError := by
  cases deliver with
  | false => exact ⟨h, rfl⟩
  | true =>
    cases channel with
    | nil => exact ⟨h, rfl⟩
    | cons r channel =>
      obtain ⟨hk, hs, hr⟩ := Stream.pop h
      simp only [shown, EndpointRegs.receive, hk, hs, if_true, List.head?_cons,
        tail_cons, bne_self_eq_false, Bool.or_false, and_true]
      exact hr

variable (deliver) in
theorem StartStream.receive {childStart said : Option (BitVec 32)}
    (h : StartStream parent child childStart said (channel ++ out)) :
    StartStream parent (child.receive false (shown deliver channel).1)
        (if (child.receive false (shown deliver channel).1).remoteStartValid then
          some (child.receive false (shown deliver channel).1).remoteStartEpoch else childStart)
        said ((shown deliver channel).2 ++ out) ∧
      (child.receive false (shown deliver channel).1).protocolError = child.protocolError := by
  cases deliver with
  | false => exact ⟨h, rfl⟩
  | true =>
    cases channel with
    | nil => exact ⟨h, rfl⟩
    | cons r channel =>
      obtain ⟨hk, hs, hr⟩ := Stream.pop h
      simp only [shown, EndpointRegs.receive, hk, hs, if_true, if_false,
        Bool.false_eq_true, List.head?_cons, tail_cons, bne_self_eq_false, Bool.or_false,
        and_true]
      exact hr

end Receive

/-! ## runs -/

/-- The state of the pair: each link's endpoint waits in reset, what is in flight fits to both ends,
and a release that was sent is held. -/
structure PairInv (s : PairState) : Prop where
  parent_reset : s.parentLinkReady = false → s.parent = .reset
  child_reset : s.childLinkReady = false → s.child = .reset
  ready : ReadyStream s.parent s.child (s.toParent ++ s.child.outgoing)
  start : StartStream s.parent s.child s.childStart
    (if s.parent.startSent then some s.startEpoch else none) (s.toChild ++ s.parent.outgoing)
  held : s.parent.startSent = true → s.startValid = true
  parent_ok : s.parent.protocolError = false
  child_ok : s.child.protocolError = false

theorem pairInv_initial : PairInv .initial := by
  refine ⟨fun _ => rfl, fun _ => rfl, ⟨?_, rfl, rfl⟩, ⟨?_, rfl, rfl⟩, fun h => ?_, rfl, rfl⟩
  · exact fun r hr => absurd hr not_mem_nil
  · exact fun r hr => absurd hr not_mem_nil
  · cases h

theorem shown_of_reset {deliver linkReady : Bool} {channel : List Record}
    (hl : linkReady = false) (hc : deliver = true → channel ≠ [] → linkReady = true) :
    (shown deliver channel).2 = channel := by
  cases deliver with
  | false => rfl
  | true =>
    cases channel with
    | nil => rfl
    | cons r channel =>
      have := hc rfl (cons_ne_nil r channel)
      rw [hl] at this
      cases this

theorem receive_sender (regs : EndpointRegs) (roleParent : Bool) (rx : Option Record) :
    (regs.receive roleParent rx).nextTxSequence = regs.nextTxSequence ∧
      (regs.receive roleParent rx).startSent = regs.startSent ∧
      (regs.receive roleParent rx).lastReadySent = regs.lastReadySent := by
  unfold EndpointRegs.receive
  cases rx with
  | none => exact ⟨rfl, rfl, rfl⟩
  | some r => dsimp only; split <;> (repeat' split) <;> exact ⟨rfl, rfl, rfl⟩

@[simp] theorem leaving_reset {inputs : EndpointInputs} : EndpointRegs.reset.leaving inputs = [] :=
  rfl

@[simp] theorem reset_remoteStartValid : EndpointRegs.reset.remoteStartValid = false := rfl

section

variable {s : PairState} (h : PairInv s)
include h

theorem PairInv.clockParent {txReady deliver : Bool}
    (hc : s.Careful (.clockParent txReady deliver)) :
    PairInv (s.step (.clockParent txReady deliver)) := by
  cases hl : s.parentLinkReady with
  | false =>
    have hrs := h.parent_reset hl
    have hsh := shown_of_reset hl hc
    have hsm : s.step (.clockParent txReady deliver) = s := by
      cases s
      dsimp only at hrs hl hsh
      simp [PairState.step, EndpointRegs.step, hl, hrs, hsh]
    rw [hsm]
    exact h
  | true =>
    have hst : s.parent.step (s.parentInputs txReady deliver) true s.parentLinkReady =
        (s.parent.send (s.parentInputs txReady deliver) true).receive true
          (shown deliver s.toParent).1 := by
      rw [EndpointRegs.step, hl, if_pos rfl]
      rfl
    obtain ⟨hn, hsn, -⟩ := receive_sender (s.parent.send (s.parentInputs txReady
      deliver) true) true (shown deliver s.toParent).1
    -- the parent's own registers of the two streams are disjoint
    have hr : ReadyStream (s.parent.send (s.parentInputs txReady deliver) true) s.child
        (s.toParent ++ s.child.outgoing) := h.ready
    obtain ⟨hr', he⟩ := hr.receive deliver
    have hsr := StartStream.send (s.parentInputs txReady deliver) h.held h.start
    refine ⟨fun hd => ?_, h.child_reset, ?_, ?_, ?_, ?_, h.child_ok⟩
    · have hd' : s.parentLinkReady = false := hd
      rw [hl] at hd'
      cases hd'
    · simp only [PairState.step, hst]
      exact hr'
    · simp only [PairState.step, hst, outgoing_receive, hsn]
      unfold StartStream at hsr ⊢
      rw [hn]
      exact hsr
    · simp only [PairState.step, hst, hsn]
      intro hs
      simp only [EndpointRegs.send, if_true, Bool.or_eq_true, Bool.and_eq_true] at hs
      rcases hs with hs | hs
      · simp only [EndpointRegs.hasNews, if_true, Bool.and_eq_true] at hs
        exact hs.1.1
      · exact hs.1
    · simp only [PairState.step, hst]
      rw [he]
      exact h.parent_ok

theorem PairInv.clockChild {txReady deliver : Bool}
    (hc : s.Careful (.clockChild txReady deliver)) :
    PairInv (s.step (.clockChild txReady deliver)) := by
  cases hl : s.childLinkReady with
  | false =>
    have hr := h.child_reset hl
    have hsh := shown_of_reset hl hc
    have hsm : s.step (.clockChild txReady deliver) = s := by
      cases s
      dsimp only at hr hl hsh
      simp [PairState.step, EndpointRegs.step, hl, hr, hsh]
    rw [hsm]
    exact h
  | true =>
    have hs : s.child.step (s.childInputs txReady deliver) false s.childLinkReady =
        (s.child.send (s.childInputs txReady deliver) false).receive false
          (shown deliver s.toChild).1 := by
      rw [EndpointRegs.step, hl, if_pos rfl]
      rfl
    obtain ⟨hn, -, hls⟩ := receive_sender (s.child.send (s.childInputs txReady
      deliver) false) false (shown deliver s.toChild).1
    have hst : StartStream s.parent (s.child.send (s.childInputs txReady deliver) false)
        s.childStart (if s.parent.startSent then some s.startEpoch else none)
        (s.toChild ++ s.parent.outgoing) := h.start
    obtain ⟨hst', he⟩ := hst.receive deliver
    have hrd := ReadyStream.send (s.childInputs txReady deliver) h.ready
    refine ⟨h.parent_reset, fun hd => ?_, ?_, ?_, h.held, h.parent_ok, ?_⟩
    · have hd' : s.childLinkReady = false := hd
      rw [hl] at hd'
      cases hd'
    · simp only [PairState.step, hs, outgoing_receive]
      unfold ReadyStream at hrd ⊢
      rw [hn, hls]
      exact hrd
    · simp only [PairState.step, hs]
      exact hst'
    · simp only [PairState.step, hs]
      rw [he]
      exact h.child_ok

theorem PairInv.step {a : PairAction} (hc : s.Careful a) : PairInv (s.step a) := by
  cases a with
  | parentLinkUp => exact { h with parent_reset := fun hd => by cases hd }
  | childLinkUp => exact { h with child_reset := fun hd => by cases hd }
  | setReady ready => exact { h with }
  | setRelease valid epoch =>
    refine { h with start := ?_, held := fun hs => (hc hs).1 }
    cases hs : s.parent.startSent with
    | false => simpa [PairState.step, hs] using h.start
    | true =>
      have hst := h.start
      simp only [hs, if_true] at hst
      simp only [PairState.step, hs, if_true, (hc hs).2]
      exact hst
  | clockParent txReady deliver => exact h.clockParent hc
  | clockChild txReady deliver => exact h.clockChild hc

theorem PairInv.run {actions : List PairAction}
    (hc : s.CarefulRun actions) : PairInv (s.run actions) := by
  induction actions generalizing s with
  | nil => exact h
  | cons a actions ih => exact ih (h.step hc.1) hc.2

theorem PairInv.agree (hq : s.Quiescent) : s.Agree := by
  obtain ⟨-, -, ht, htc, hpr, hch, hp, hc⟩ := hq
  have hr := h.ready.last
  have hs := h.start.last
  simp only [EndpointRegs.outgoing, ht, hch] at hr
  simp only [EndpointRegs.outgoing, htc, hpr] at hs
  have hr' : s.parent.remoteSubtreeReady = s.child.lastReadySent := hr
  have hs' : s.childStart = if s.parent.startSent then some s.startEpoch else none := hs
  refine ⟨?_, ?_, h.parent_ok, h.child_ok⟩
  · rw [hr']
    simp only [EndpointRegs.hasNews, Bool.or_eq_false_iff, Bool.false_eq_true, if_false] at hc
    exact (bne_eq_false_iff_eq.mp hc.2).symm
  · rw [hs']
    cases hv : s.startValid with
    | false =>
      cases hsn : s.parent.startSent with
      | false => rfl
      | true =>
        rw [h.held hsn] at hv
        cases hv
    | true =>
      simp only [EndpointRegs.hasNews, PairState.parentInputs, hv, if_true, Bool.true_and,
        Bool.not_eq_false'] at hp
      rw [hp]

end

/-- **The two sides of a tree edge agree whenever their channels are quiet**, in every run that
shows no record to an endpoint in reset and holds a release that was sent. -/
theorem quiescent_agree (actions : List PairAction)
    (hcareful : PairState.initial.CarefulRun actions)
    (hquiescent : (PairState.initial.run actions).Quiescent) :
    (PairState.initial.run actions).Agree :=
  (pairInv_initial.run hcareful).agree hquiescent

/-- The child's link comes up first, and its first READY reaches a parent in reset. -/
def earlyReady : List PairAction :=
  [.childLinkUp, .setReady true, .clockChild true false, .clockChild true false,
    .clockParent true true, .parentLinkUp]

/-- The channel is quiet, and the parent has not seen its child ready; with the next change it
raises a protocol error. -/
theorem earlyReady_disagree :
    (PairState.initial.run earlyReady).Quiescent ∧ ¬ (PairState.initial.run earlyReady).Agree ∧
      (PairState.initial.run (earlyReady ++ [.setReady false, .clockChild true false,
        .clockChild true false, .clockParent true true])).parent.protocolError = true := by
  decide

instance decidableCareful (s : PairState) : ∀ a, Decidable (s.Careful a)
  | .clockParent _ deliver =>
    inferInstanceAs (Decidable (deliver = true → s.toParent ≠ [] → s.parentLinkReady = true))
  | .clockChild _ deliver =>
    inferInstanceAs (Decidable (deliver = true → s.toChild ≠ [] → s.childLinkReady = true))
  | .setRelease valid epoch => inferInstanceAs
    (Decidable (s.parent.startSent = true → valid = true ∧ epoch = s.startEpoch))
  | .parentLinkUp | .childLinkUp | .setReady _ => inferInstanceAs (Decidable True)

instance decidableCarefulRun : ∀ (s : PairState) (actions : List PairAction),
    Decidable (s.CarefulRun actions)
  | _, [] => inferInstanceAs (Decidable True)
  | s, a :: actions =>
    have := decidableCarefulRun (s.step a) actions
    inferInstanceAs (Decidable (s.Careful a ∧ (s.step a).CarefulRun actions))

/-- The same run with the parent's link up before the record is shown, and a release after it. -/
def lateReady : List PairAction :=
  [.childLinkUp, .setReady true, .clockChild true false, .clockChild true false, .parentLinkUp,
    .clockParent true true, .setRelease true 7, .clockParent true false, .clockParent true false,
    .clockChild true true]

theorem lateReady_agree : (PairState.initial.run lateReady).Agree :=
  quiescent_agree lateReady (by decide) (by decide)

end EmuFlow.Pcs
