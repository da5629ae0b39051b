import EmuFlow.Chimew.Grouping
import EmuFlow.Lib.MachineNumber

/-!
# Refinement by positions

`refine_bucket` and `run` of `chimew_position_refiner.cpp` and `_oracle_refine` with the checks
after it of `emuflow/chimew_refinement.py`. The signals of a bucket have one encoding; they are
dealt to its groups in the order of their positions, and stay where they were if that makes the
groups wider. The two sides differ in what they call a signal and in the order they take groups in,
which the definitions here take as parameters. Positions and objectives are doubles.
-/

namespace EmuFlow.Chimew

open Check SortedSet List

/-! ## one bucket -/

section bucket

variable {ι : Type} [LinearOrder ι]

/-- The groups of the signals and the signals of the groups, with the counts of the metric. -/
structure Refined (ι : Type) where
  group : ι → ℕ
  members : ℕ → List ι
  accepted : ℕ := 0
  moved : ℕ := 0

/-- What is added for sorted values: each is the larger end of as many pairs as there are before it.
-/
def pairTerms : ℕ → ℚ → List ℚ → List ℚ
  | _, _, [] => []
  | index, before, value :: values =>
    Binary64.sub (Binary64.mul value index) before ::
      pairTerms (index + 1) (Binary64.add before value) values

/-- `pairwise_objective`, the groups in the order they are taken. -/
def pairwiseObjective (sourceY : ι → ℚ) (members : ℕ → List ι) (groups : List ℕ) : ℚ :=
  (groups.flatMap fun group =>
    pairTerms 0 0 (sorted ((members group).map sourceY))).foldl Binary64.add 0

/-- `median`, of at least one value. -/
def median (values : List ℚ) : ℚ :=
  let ordered := sorted values
  let middle := ordered.length / 2
  if ordered.length % 2 = 1 then ordered.getD middle 0
  else Binary64.round (Binary64.add (ordered.getD (middle - 1) 0) (ordered.getD middle 0) / 2)

def anchorValues (sourceY : ι → ℚ) (encoding : ι → ℕ) (members : List ι) (code : ℕ) : List ℚ :=
  let others := members.filter fun i => encoding i ≠ code
  if others = [] then (members.filter fun i => encoding i = code).map sourceY
  else others.map sourceY

def affectedGroups (state : Refined ι) (bucket : List ι) : List ℕ :=
  sortedSet (bucket.map state.group)

def orderedGroups (sourceY : ι → ℚ) (encoding : ι → ℕ) (state : Refined ι) (bucket : List ι)
    (code : ℕ) : List ℕ :=
  (sortedBy (fun anchor : ℚ × ℕ => lex anchor.1 anchor.2)
    ((affectedGroups state bucket).map fun group =>
      (median (anchorValues sourceY encoding (state.members group) code), group))).map Prod.snd

def orderedSignals (sourceY : ι → ℚ) (bucket : List ι) : List ι :=
  sortedBy (fun i => lex (sourceY i) i) bucket

def dealtGroups (sourceY : ι → ℚ) (encoding : ι → ℕ) (state : Refined ι) (bucket : List ι)
    (code : ℕ) : List (ι × ℕ) :=
  (orderedSignals sourceY bucket).zip
    ((orderedGroups sourceY encoding state bucket code).flatMap fun group =>
      replicate (bucket.countP fun i => state.group i = group) group)

/-- `members[group].erase(signal)` -/
def eraseMember (members : ℕ → List ι) (entry : ι × ℕ) : ℕ → List ι :=
  Function.update members entry.2 ((members entry.2).erase entry.1)

/-- `members[group].insert(signal)` -/
def insertMember (members : ℕ → List ι) (entry : ι × ℕ) : ℕ → List ι :=
  Function.update members entry.2 (sortedSet (entry.1 :: members entry.2))

def dealt (state : Refined ι) (old new : List (ι × ℕ)) : Refined ι :=
  { state with
    group := new.foldl (fun group entry => Function.update group entry.1 entry.2) state.group
    members := new.foldl insertMember (old.foldl eraseMember state.members) }

def putBack (state : Refined ι) (entry : ι × ℕ) : Refined ι :=
  { state with
    group := Function.update state.group entry.1 entry.2
    members := insertMember (eraseMember state.members (entry.1, state.group entry.1)) entry }

def margin : ℚ := Binary64.round (1 / 10 ^ 12)

/-- `after > before + 1e-12` -/
def Rises (sourceY : ι → ℚ) (before after : ℕ → List ι) (groups : List ℕ) : Prop :=
  Binary64.add (pairwiseObjective sourceY before groups) margin <
    pairwiseObjective sourceY after groups

instance (sourceY : ι → ℚ) (before after : ℕ → List ι) (groups : List ℕ) :
    Decidable (Rises sourceY before after groups) := inferInstanceAs (Decidable (_ < _))

/-- Where the signals of a bucket are before the deal. -/
def oldGroups (sourceY : ι → ℚ) (state : Refined ι) (bucket : ℕ × List ι) : List (ι × ℕ) :=
  (orderedSignals sourceY bucket.2).map fun i => (i, state.group i)

def deal (sourceY : ι → ℚ) (encoding : ι → ℕ) (state : Refined ι) (bucket : ℕ × List ι) :
    Refined ι :=
  dealt state (oldGroups sourceY state bucket)
    (dealtGroups sourceY encoding state bucket.2 bucket.1)

/-- `order` is how the set of the groups is gone through. -/
def refineWith (order : List ℕ → List ℕ) (sourceY : ι → ℚ) (encoding : ι → ℕ) (state : Refined ι)
    (bucket : ℕ × List ι) : Refined ι :=
  if bucket.2.length < 2 ∨ (affectedGroups state bucket.2).length < 2 then state
  else
    let old := oldGroups sourceY state bucket
    let after := deal sourceY encoding state bucket
    if Rises sourceY state.members after.members (order (bucket.2.map state.group)) then
      old.foldl putBack after
    else
      let moved := old.countP fun entry => after.group entry.1 ≠ entry.2
      if 0 < moved then
        { after with accepted := after.accepted + 1, moved := after.moved + moved }
      else after

end bucket

/-! ## the native refiner -/

structure RefinerSignal where
  domain : ℕ
  ratio : ℕ
  encoding : ℕ
  group : ℕ
  sourceY : ℚ

variable {n : ℕ}

def groupMembers (signals : Fin n → RefinerSignal) (group : ℕ) : List (Fin n) :=
  (finRange n).filter fun i => (signals i).group = group

def refinerStart (signals : Fin n → RefinerSignal) : Refined (Fin n) :=
  { group := fun i => (signals i).group, members := groupMembers signals }

/-- `refine_bucket`, with the encoding of the bucket. -/
def refineBucket (signals : Fin n → RefinerSignal) :
    Refined (Fin n) → ℕ × List (Fin n) → Refined (Fin n) :=
  refineWith sortedSet (fun i => (signals i).sourceY) fun i => (signals i).encoding

def refinerBuckets (signals : Fin n → RefinerSignal) : List (ℕ × List (Fin n)) :=
  Buckets.sortedBuckets
    (fun i => lex (signals i).domain (lex (signals i).ratio (signals i).encoding)) id
    (fun key => (ofLex (ofLex key).2).2) (finRange n)

structure RefinerOutput (ι : Type) where
  assignment : ι → ℕ
  accepted : ℕ
  moved : ℕ
  before : ℚ
  after : ℚ

def refineAll {ι : Type} (sourceY : ι → ℚ) (refine : Refined ι → ℕ × List ι → Refined ι)
    (start : Refined ι) (buckets : List (ℕ × List ι)) (allGroups : List ℕ) : RefinerOutput ι :=
  let refined := buckets.foldl refine start
  { assignment := refined.group
    accepted := refined.accepted
    moved := refined.moved
    before := pairwiseObjective sourceY start.members allGroups
    after := pairwiseObjective sourceY refined.members allGroups }

def runRefiner (signals : Fin n → RefinerSignal) : Except String (RefinerOutput (Fin n)) := do
  let output := refineAll (fun i => (signals i).sourceY) (refineBucket signals)
    (refinerStart signals) (refinerBuckets signals)
    (sortedSet ((finRange n).map fun i => (signals i).group))
  raiseIf (Binary64.add output.before margin < output.after)
    "position refinement increased its objective"
  return output

/-! ## the oracle -/

structure Entries (n : ℕ) where
  entry : Fin n → ScheduleEntry
  id_strictMono : StrictMono fun i => (entry i).id

/-- The data of a refinement: encodings, positions, groups and guarded lanes by identifiers. -/
structure RefinementInput where
  encodings : List (String × ℕ)
  positions : String → ℚ
  initial : String → ℕ
  guards : String → Option GuardLane

def slotKey (slot : Option ℕ) : Bool ×ₗ ℤ := lex slot.isSome ((slot.map fun s => (s : ℤ)).getD (-1))

structure RefineKey where
  domain : Domain
  guard : Option GuardLane
  frozenSlot : Option ℕ
  ratio : ℕ
  encoding : ℕ
  deriving DecidableEq

def refineKey (entries : Entries n) (input : RefinementInput) (i : Fin n) : RefineKey :=
  { domain := domain (entries.entry i)
    guard := input.guards (entries.entry i).id
    frozenSlot := (entries.entry i).slot
    ratio := tdmRatio (entries.entry i)
    encoding := encodingOf input.encodings (entries.entry i).id }

abbrev NativeDomainKey :=
  (String ×ₗ String ×ₗ String) ×ₗ (Bool ×ₗ String ×ₗ String ×ₗ String ×ₗ ℤ) ×ₗ Bool ×ₗ ℤ

def RefineKey.domainRank (key : RefineKey) : NativeDomainKey :=
  lex (domainKey key.domain) (lex (guardKey key.guard) (slotKey key.frozenSlot))

/-- The buckets of `_oracle_refine`, by identifiers. -/
def oracleRefineBuckets (entries : Entries n) (input : RefinementInput) :
    List (ℕ × List String) :=
  (Buckets.sortedBuckets (refineKey entries input)
    (fun key => lex key.domainRank (lex key.ratio key.encoding)) RefineKey.encoding
    (finRange n)).map fun bucket => (bucket.1, bucket.2.map fun i => (entries.entry i).id)

/-- The orders in which the interpreter goes through the sets `affected` and `all_groups`, by what
was put into them. -/
structure SetOrders where
  affected : List ℕ → List ℕ
  all : List ℕ → List ℕ
  affected_perm : ∀ groups, (affected groups).Perm (sortedSet groups)
  all_perm : ∀ groups, (all groups).Perm (sortedSet groups)

def oracleRefine (orders : SetOrders) (entries : Entries n) (input : RefinementInput) :
    RefinerOutput String :=
  let ids := (finRange n).map fun i => (entries.entry i).id
  refineAll input.positions
    (refineWith orders.affected input.positions (encodingOf input.encodings))
    { group := input.initial
      members := fun group => ids.filter fun id => input.initial id = group }
    (oracleRefineBuckets entries input) (orders.all (ids.map input.initial))

/-- The signals that `_run_native` writes. -/
def refinerSignals (entries : Entries n) (input : RefinementInput) (i : Fin n) : RefinerSignal :=
  { domain := domainIndex ((finRange n).map fun j => (refineKey entries input j).domainRank)
      (refineKey entries input i).domainRank
    ratio := tdmRatio (entries.entry i)
    encoding := encodingOf input.encodings (entries.entry i).id
    group := input.initial (entries.entry i).id
    sourceY := input.positions (entries.entry i).id }

/-! ## the checks -/

def groupedBy (groups : Fin n → ℕ) : List (ℕ × List (Fin n)) :=
  (sortedSet ((finRange n).map groups)).map fun group =>
    (group, (finRange n).filter fun i => groups i = group)

def SlotsClash (entries : Entries n) (members : List (Fin n)) : Prop :=
  let explicit := members.filterMap fun i => (entries.entry i).slot
  explicit ≠ [] ∧ (explicit.length ≠ members.length ∨ ¬ explicit.Nodup)

instance (entries : Entries n) (members : List (Fin n)) : Decidable (SlotsClash entries members) :=
  inferInstanceAs (Decidable (_ ∧ _))

def validateInitialGroup (entries : Entries n) (group : ℕ × List (Fin n)) : Result Unit := do
  raiseIf (∃ i ∈ group.2, ∃ j ∈ group.2, domain (entries.entry i) ≠ domain (entries.entry j) ∨
      tdmRatio (entries.entry i) ≠ tdmRatio (entries.entry j))
    (.validation "Chimew group %s crosses a grouping domain" [toString group.1])
  raiseIf (∃ i ∈ group.2, tdmRatio (entries.entry i) < group.2.length)
    (.validation "Chimew group %s exceeds its TDM ratio" [toString group.1])
  raiseIf (SlotsClash entries group.2)
    (.validation "Chimew group %s reuses a frozen Phase 5 slot" [toString group.1])

def initialGroups (entries : Entries n) (input : RefinementInput) (i : Fin n) : ℕ :=
  input.initial (entries.entry i).id

def validateInitialGroups (entries : Entries n) (input : RefinementInput) : Result Unit :=
  forM (groupedBy (initialGroups entries input)) (validateInitialGroup entries)

/-- `math.isclose(a, b, rel_tol=1e-12, abs_tol=1e-9)` -/
def IsClose (a b : ℚ) : Prop :=
  a = b ∨ |Binary64.sub b a| ≤ |Binary64.mul margin b| ∨
    |Binary64.sub b a| ≤ |Binary64.mul margin a| ∨
    |Binary64.sub b a| ≤ Binary64.round (1 / 10 ^ 9)

instance (a b : ℚ) : Decidable (IsClose a b) := inferInstanceAs (Decidable (_ ∨ _))

def groupCrossings (entries : Entries n) (input : RefinementInput) (groups : Fin n → ℕ) :
    List (ℕ × ℕ) :=
  (groupedBy groups).map fun group =>
    (group.1, group.2.foldl
      (fun crossings i => crossings ||| encodingOf input.encodings (entries.entry i).id) 0)

def checkRefinement (entries : Entries n) (input : RefinementInput)
    (native : RefinerOutput (Fin n)) (oracle : RefinerOutput String) : Result Unit := do
  raiseIf ((∃ i, native.assignment i ≠ oracle.assignment (entries.entry i).id) ∨
      native.accepted ≠ oracle.accepted ∨ native.moved ≠ oracle.moved ∨
      ¬ IsClose native.before oracle.before ∨ ¬ IsClose native.after oracle.after)
    (.emuFlow "native Chimew refinement disagrees with Python replay" [])
  raiseIf (Binary64.add native.before (Binary64.round (1 / 10 ^ 9)) < native.after)
    (.emuFlow "Chimew refinement increased the position objective" [])
  raiseIf (groupCrossings entries input (initialGroups entries input) ≠
      groupCrossings entries input native.assignment)
    (.emuFlow "Chimew refinement changed a group SLL encoding" [])
  forM (groupedBy native.assignment) fun group =>
    raiseIf (SlotsClash entries group.2)
      (.emuFlow "Chimew refinement reused a frozen Phase 5 slot in group %s" [toString group.1])

def refineChimewGroups (orders : SetOrders) (entries : Entries n) (input : RefinementInput) :
    Result (RefinerOutput (Fin n)) := do
  validateInitialGroups entries input
  match runRefiner (refinerSignals entries input) with
  | .error message => .error (.emuFlow "Chimew position refiner failed: %s" [message])
  | .ok native => do
    checkRefinement entries input native (oracleRefine orders entries input)
    return native

end EmuFlow.Chimew
