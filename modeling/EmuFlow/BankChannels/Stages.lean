import EmuFlow.BankChannels.Extended
import EmuFlow.Lib.MachineNumber

/-!
# Chimew bank and channel assignment: the stages

`native/chimew_bank_channel_assigner.cpp`, `solve_bank`: stage one has bound the groups to banks of
their domain; stage two binds the groups of a bank to its channels, once for either priority of the
directions. Raw costs are doubles.
-/

namespace EmuFlow.BankChannels

open Check

structure Point where
  x : ℚ
  y : ℚ

structure Member where
  /-- 0: from FPGA A to B, 1: from B to A. -/
  direction : ℕ
  timingWeight : ℚ
  fanout : Point
  fanins : List Point

structure Group where
  domain : ℕ
  /-- 0: TDM group, 1: common signal. -/
  kind : ℕ
  /-- 0: from A to B, 1: from B to A, 2: shared TDM bundle. -/
  direction : ℕ
  members : List Member
  deriving Inhabited

structure Channel where
  pinA : Point
  pinB : Point

instance : Inhabited Channel := ⟨⟨⟨0, 0⟩, ⟨0, 0⟩⟩⟩

structure BankPair where
  domain : ℕ
  bankA : Point
  bankB : Point
  /-- The channels of the bank in their order. -/
  channels : List ℕ

instance : Inhabited BankPair := ⟨⟨0, ⟨0, 0⟩, ⟨0, 0⟩, []⟩⟩

structure Input where
  costScale : ℚ
  banks : List BankPair
  channels : List Channel
  groups : List Group

/-- What `read_input` checks. -/
structure Input.Accepted (input : Input) : Prop where
  costScale : 0 < input.costScale
  banks : input.banks ≠ []
  channels : input.channels ≠ []
  groups : input.groups ≠ []
  bankChannels : ∀ bank ∈ input.banks, bank.channels ≠ [] ∧ bank.channels.Nodup ∧
    ∀ channel ∈ bank.channels, channel < input.channels.length
  kinds : ∀ group ∈ input.groups, (group.kind = 0 ∨ group.kind = 1) ∧ group.direction ≤ 2 ∧
    group.members ≠ [] ∧ (group.kind = 1 → group.members.length = 1)
  members : ∀ group ∈ input.groups, ∀ member ∈ group.members, member.direction ≤ 1 ∧
    (group.direction ≠ 2 → member.direction = group.direction) ∧ 0 < member.timingWeight ∧
    member.fanins ≠ []
  bundles : ∀ group ∈ input.groups, group.direction = 2 →
    (∃ member ∈ group.members, member.direction = 0) ∧
      ∃ member ∈ group.members, member.direction = 1

/-! ## costs -/

/-- A double below the infinities. All terms of a raw cost are nonnegative, so that it is finite
only when they are. -/
def finite (x : ℚ) : Option ℚ := if |x| < 2 ^ 1024 then some x else none

def manhattan (lhs rhs : Point) : Option ℚ := do
  let x ← finite (Binary64.sub lhs.x rhs.x)
  let y ← finite (Binary64.sub lhs.y rhs.y)
  finite (Binary64.add |x| |y|)

def memberCost (endpointA endpointB : Point) (member : Member) : Option ℚ := do
  let output := if member.direction = 0 then endpointA else endpointB
  let input := if member.direction = 0 then endpointB else endpointA
  let memberCost ← manhattan member.fanout output
  let faninDistance ← member.fanins.foldlM (fun distance fanin => do
    finite (Binary64.add distance (← manhattan fanin input))) 0
  finite (Binary64.add memberCost (Binary64.round (faninDistance / member.fanins.length)))

def rawCost (group : Group) (endpointA endpointB : Point) : Option ℚ :=
  group.members.foldlM (fun cost member => do
    let memberCost ← memberCost endpointA endpointB member
    finite (Binary64.add cost (← finite (Binary64.mul member.timingWeight memberCost)))) 0

/-- `std::llround`: halves away from zero, and the least value for what does not fit. -/
def llround (x : ℚ) : ℤ :=
  let nearest := if 0 ≤ x then ⌊x + 1 / 2⌋ else ⌈x - 1 / 2⌉
  if nearest ≤ int64Max ∧ -2 ^ 63 ≤ nearest then nearest else -2 ^ 63

def edgeOutOfRange : String := "Chimew edge cost is out of range"

/-- `int64Max` is `2 ^ 63` as a double. -/
def rankedCost (raw : Option ℚ) (scale : ℚ) : Except String ℤ :=
  match raw with
  | none => .error edgeOutOfRange
  | some raw => do
    raiseIf (raw < 0 ∨ raw > Binary64.round (2 ^ 63 / scale)) edgeOutOfRange
    return llround (Binary64.mul raw scale)

def groupsOf (rightForLeft : List ℕ) (bank : ℕ) : List ℕ :=
  (List.range rightForLeft.length).filter fun group => rightForLeft[group]? = some bank

def bankGroups (input : Input) (rightForLeft : List ℕ) (bank : ℕ) : List Group :=
  (groupsOf rightForLeft bank).map fun group => input.groups.getD group default

/-! ## stage two -/

def directionCount (groups : List Group) (direction : ℕ) : ℕ :=
  groups.countP fun group => group.kind = 0 ∧ group.direction = direction

def commonCount (groups : List Group) : ℕ := groups.countP fun group => group.kind ≠ 0

def dedicatedDirection (groups : List Group) : Option ℕ :=
  if commonCount groups ≠ 0 then none
  else if directionCount groups 0 > 0 ∧ directionCount groups 1 = 0 ∧ directionCount groups 2 = 0
    then some 0
  else if directionCount groups 1 > 0 ∧ directionCount groups 0 = 0 ∧ directionCount groups 2 = 0
    then some 1
  else if directionCount groups 2 > 0 ∧ directionCount groups 0 = 0 ∧ directionCount groups 1 = 0
    then some 2
  else none

/-- `required_kind` with `required_direction`: a direction, or none for a common signal. -/
def requiredDirection (groups : List Group) (priority right : ℕ) : Option ℕ :=
  let first := directionCount groups priority
  let second := directionCount groups (1 - priority)
  if right < first then some priority
  else if right < first + second then some (1 - priority)
  else if right < first + second + directionCount groups 2 then some 2
  else none

def eligible (groups : List Group) (priority right : ℕ) (group : Group) : Prop :=
  match dedicatedDirection groups with
  | some direction => group.kind = 0 ∧ group.direction = direction
  | none =>
    match requiredDirection groups priority right with
    | some direction => group.kind = 0 ∧ group.direction = direction
    | none => group.kind = 1

instance (groups : List Group) (priority right : ℕ) (group : Group) :
    Decidable (eligible groups priority right group) := by
  unfold eligible
  split
  · infer_instance
  · split <;> infer_instance

def channelCost (input : Input) (channel : ℕ) (group : Group) : Except String ℤ :=
  let pins := input.channels.getD channel default
  rankedCost (rawCost group pins.pinA pins.pinB) input.costScale

def eligiblePairs (groups : List Group) (priority channels : ℕ) : List (ℕ × ℕ) :=
  ((List.range channels).product (List.range groups.length)).filter fun pair =>
    eligible groups priority pair.1 (groups.getD pair.2 default)

/-- The candidates of `solve_bank`. -/
def channelCandidates (input : Input) (bank : BankPair) (groups : List Group) (priority : ℕ) :
    Except String (List CandidateEdge) :=
  (eligiblePairs groups priority bank.channels.length).mapM fun pair => do
    let cost ← channelCost input (bank.channels.getD pair.1 0) (groups.getD pair.2 default)
    return { right := pair.1, left := pair.2, cost := cost }

def solveBank (fuel : ℕ) (input : Input) (bank : BankPair) (groups : List Group) (priority : ℕ) :
    Option (Except String AssignmentResult) :=
  match channelCandidates input bank groups priority with
  | .error e => some (.error e)
  | .ok candidates =>
    assign fuel (List.replicate bank.channels.length 1) groups.length candidates

/-!
## The sections of a bank

The channels of a bank fall into sections, one for each direction with as many channels as groups
and the rest for the common signals; the groups section by section are an assignment, so that one
exists whenever the bank has as many channels as groups.

* `eligible_iff` — the section of a group
* `order_perm`, `order_eligible` — the groups section by section
* `exists_complete` — the assignment
-/

open Transport List

variable {input : Input} {bank : BankPair} {groups : List Group} {group : Group}
  {priority right left : ℕ} {candidates : List CandidateEdge}

/-! ## sections -/

def sectionNumber (priority : ℕ) (group : Group) : ℕ :=
  if group.kind ≠ 0 then 3
  else if group.direction = priority then 0
  else if group.direction = 1 - priority then 1
  else 2

def sectionSize (groups : List Group) (priority number : ℕ) : ℕ :=
  groups.countP fun group => sectionNumber priority group = number

def sectionStart (groups : List Group) (priority : ℕ) : ℕ → ℕ
  | 0 => 0
  | number + 1 => sectionStart groups priority number + sectionSize groups priority number

/-- The channels for a group: those of its section, or all when the bank has one direction. -/
def InSection (groups : List Group) (priority right : ℕ) (group : Group) : Prop :=
  (dedicatedDirection groups).isSome ∨
    sectionStart groups priority (sectionNumber priority group) ≤ right ∧
      (sectionNumber priority group = 3 ∨
        right < sectionStart groups priority (sectionNumber priority group + 1))

def Sound (groups : List Group) : Prop :=
  ∀ group ∈ groups, (group.kind = 0 ∨ group.kind = 1) ∧ group.direction ≤ 2

theorem sectionNumber_cases (hk : group.kind = 0 ∨ group.kind = 1)
    (hd : group.direction ≤ 2) (hp : priority < 2) :
    sectionNumber priority group = 0 ∧ group.kind = 0 ∧ group.direction = priority ∨
      sectionNumber priority group = 1 ∧ group.kind = 0 ∧ group.direction = 1 - priority ∨
      sectionNumber priority group = 2 ∧ group.kind = 0 ∧ group.direction = 2 ∨
      sectionNumber priority group = 3 ∧ group.kind = 1 := by
  unfold sectionNumber
  split_ifs <;> omega

theorem sectionSize_direction (hg : Sound groups) (hp : priority < 2) :
    sectionSize groups priority 0 = directionCount groups priority ∧
      sectionSize groups priority 1 = directionCount groups (1 - priority) ∧
      sectionSize groups priority 2 = directionCount groups 2 := by
  refine ⟨?_, ?_, ?_⟩ <;>
  · refine countP_congr fun group hgr => ?_
    obtain ⟨hk, hd⟩ := hg group hgr
    have hc := sectionNumber_cases hk hd hp
    rw [decide_eq_true_eq, decide_eq_true_eq]
    omega

theorem eligible_iff (hg : Sound groups) (hp : priority < 2)
    (hn : dedicatedDirection groups = none) (hgp : group ∈ groups) :
    eligible groups priority right group ↔
      sectionStart groups priority (sectionNumber priority group) ≤ right ∧
        (sectionNumber priority group = 3 ∨
          right < sectionStart groups priority (sectionNumber priority group + 1)) := by
  obtain ⟨hf, hsn, hb⟩ := sectionSize_direction hg hp
  obtain ⟨hkn, hdr⟩ := hg group hgp
  have hc := @sectionNumber_cases group priority hkn hdr hp
  unfold eligible requiredDirection
  rw [hn]
  dsimp only
  rw [← hf, ← hsn, ← hb]
  rcases hc with ⟨hs, hk, hd⟩ | ⟨hs, hk, hd⟩ | ⟨hs, hk, hd⟩ | ⟨hs, hk⟩
  · rw [hs]
    simp only [sectionStart]
    split <;> rename_i heq <;> split_ifs at heq <;> cases heq <;> omega
  · rw [hs]
    simp only [sectionStart]
    split <;> rename_i heq <;> split_ifs at heq <;> cases heq <;> omega
  · rw [hs]
    simp only [sectionStart]
    split <;> rename_i heq <;> split_ifs at heq <;> cases heq <;> omega
  · rw [hs]
    simp only [sectionStart, true_or, and_true]
    split <;> rename_i heq <;> split_ifs at heq <;> cases heq <;> omega

theorem eligible_of_dedicated (hgr : Sound groups) {direction : ℕ}
    (hs : dedicatedDirection groups = some direction) (hg : group ∈ groups) :
    eligible groups priority right group := by
  have hc : ∀ {d : ℕ}, directionCount groups d = 0 →
      ¬ (group.kind = 0 ∧ group.direction = d) := fun hcn => by
    simpa using countP_eq_zero.mp hcn group hg
  have hk : commonCount groups = 0 → group.kind = 0 := fun hcn => by
    simpa using countP_eq_zero.mp hcn group hg
  obtain ⟨-, hd⟩ := hgr group hg
  unfold eligible
  rw [hs]
  dsimp only
  unfold dedicatedDirection at hs
  split_ifs at hs with hn h0 h1 h2
  · cases hs
    have hz := hk (not_not.mp hn)
    have hf := hc h0.2.1
    have hsc := hc h0.2.2
    omega
  · cases hs
    have hz := hk (not_not.mp hn)
    have hf := hc h1.2.1
    have hsc := hc h1.2.2
    omega
  · cases hs
    have hz := hk (not_not.mp hn)
    have hf := hc h2.2.1
    have hsc := hc h2.2.2
    omega

theorem inSection_of_eligible (hg : Sound groups) (hp : priority < 2)
    (hgr : group ∈ groups) (h : eligible groups priority right group) :
    InSection groups priority right group := by
  cases hd : dedicatedDirection groups with
  | some direction => exact .inl (by rw [hd]; rfl)
  | none => exact .inr ((eligible_iff hg hp hd hgr).mp h)

/-! ## the groups section by section -/

def sectionLefts (groups : List Group) (priority number : ℕ) : List ℕ :=
  (List.range groups.length).filter fun left =>
    sectionNumber priority (groups.getD left default) = number

def order (groups : List Group) (priority : ℕ) : List ℕ :=
  if (dedicatedDirection groups).isSome then List.range groups.length
  else [0, 1, 2, 3].flatMap (sectionLefts groups priority)

theorem map_getD_range (groups : List Group) :
    (List.range groups.length).map (fun left => groups.getD left default) = groups := by
  refine ext_getElem? fun i => ?_
  rw [List.getElem?_map]
  by_cases hi : i < groups.length
  · rw [List.getElem?_range hi, List.getElem?_eq_getElem hi, Option.map_some,
      getD_eq_getElem?_getD, List.getElem?_eq_getElem hi]
    rfl
  · rw [List.getElem?_eq_none (by simpa using hi), List.getElem?_eq_none (not_lt.mp hi)]
    rfl

theorem length_sectionLefts (number : ℕ) :
    (sectionLefts groups priority number).length = sectionSize groups priority number := by
  rw [sectionLefts, ← countP_eq_length_filter, sectionSize]
  conv_rhs => rw [← map_getD_range groups, countP_map]
  rfl

theorem order_perm : (order groups priority).Perm (List.range groups.length) := by
  unfold order
  split_ifs
  · exact Perm.refl _
  · refine @Keyed.flatMap_filter_perm _ _ _
      (fun left => sectionNumber priority (groups.getD left default)) _ _ (by decide)
      fun left _ => ?_
    simp only [sectionNumber]
    split_ifs <;> decide

theorem order_eligible (hg : Sound groups) (hp : priority < 2)
    (h : (order groups priority)[right]? = some left) :
    left < groups.length ∧ eligible groups priority right (groups.getD left default) := by
  have hlt : left < groups.length := mem_range.mp (order_perm.mem_iff.mp (mem_of_getElem? h))
  have hm : groups.getD left default ∈ groups := by
    rw [getD_eq_getElem?_getD, List.getElem?_eq_getElem hlt]
    exact getElem_mem hlt
  refine ⟨hlt, ?_⟩
  cases hd : dedicatedDirection groups with
  | some direction => exact eligible_of_dedicated hg hd hm
  | none =>
    have hin : ∀ {number i : ℕ}, (sectionLefts groups priority number)[i]? = some left →
        sectionNumber priority (groups.getD left default) = number ∧
          i < sectionSize groups priority number := by
      intro number i hgt
      have hf := (mem_filter.mp (mem_of_getElem? hgt)).2
      obtain ⟨hi, -⟩ := List.getElem?_eq_some_iff.mp hgt
      rw [length_sectionLefts] at hi
      exact ⟨of_decide_eq_true hf, hi⟩
    rw [eligible_iff hg hp hd hm]
    rw [order, hd, if_neg (by simp)] at h
    simp only [flatMap_cons, flatMap_nil, append_nil, List.getElem?_append,
      length_sectionLefts] at h
    split_ifs at h with h0 h1 h2
    · obtain ⟨hs, hi⟩ := hin h
      rw [hs]
      simp only [sectionStart]
      omega
    · obtain ⟨hs, hi⟩ := hin h
      rw [hs]
      simp only [sectionStart]
      omega
    · obtain ⟨hs, hi⟩ := hin h
      rw [hs]
      simp only [sectionStart]
      omega
    · obtain ⟨hs, hi⟩ := hin h
      rw [hs]
      simp only [sectionStart]
      omega

end EmuFlow.BankChannels
