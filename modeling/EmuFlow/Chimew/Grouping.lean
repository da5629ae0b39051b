import EmuFlow.Chimew.Signals
import EmuFlow.Lib.SortedDict

/-!
# Grouping by encodings

`group_bucket` and `run` of `chimew_signal_grouper.cpp` and `_oracle_groups` of
`emuflow/chimew_grouping.py`. A group starts from the encoding with the most crossings and takes the
signal that adds the fewest to it, with a slot that is still free.
-/

namespace EmuFlow.Chimew

open SortedSet List Keyed

abbrev Remaining := List (ℕ × List ℕ)

def removeSignal (remaining : Remaining) (encoding signal : ℕ) : Remaining :=
  remaining.map fun entry =>
    if entry.1 = encoding then (entry.1, entry.2.erase signal) else entry

/-! ## keys -/

@[reducible] def withInt (κ : Type) [LinearOrder κ] : LinearOrder (ℤ ×ₗ κ) :=
  @Prod.Lex.instLinearOrder ℤ κ Int.instLinearOrder _

def SeedKey := ℤ ×ₗ ℤ ×ₗ ℤ

instance : LinearOrder SeedKey :=
  @withInt _ (@withInt ℤ Int.instLinearOrder)

def NearestKey := ℤ ×ₗ ℤ ×ₗ ℤ ×ₗ SeedKey

instance : LinearOrder NearestKey :=
  @withInt _ (@withInt _ (withInt SeedKey))

def SeedKey.mk (a b c : ℤ) : SeedKey := toLex (a, toLex (b, c))

def NearestKey.mk (a b c d e f : ℤ) : NearestKey :=
  toLex (a, toLex (b, toLex (c, SeedKey.mk d e f)))

theorem SeedKey.mk_inj {a b c a' b' c' : ℤ} :
    SeedKey.mk a b c = SeedKey.mk a' b' c' ↔ a = a' ∧ b = b' ∧ c = c' := by
  constructor
  · intro h
    have ht : toLex (b, c) = toLex (b', c') := congrArg (fun k : ℤ ×ₗ ℤ ×ₗ ℤ => (ofLex k).2) h
    exact ⟨congrArg (fun k : ℤ ×ₗ ℤ ×ₗ ℤ => (ofLex k).1) h,
      congrArg (fun k : ℤ ×ₗ ℤ => (ofLex k).1) ht, congrArg (fun k : ℤ ×ₗ ℤ => (ofLex k).2) ht⟩
  · rintro ⟨rfl, rfl, rfl⟩
    rfl

theorem NearestKey.mk_inj {a b c d e f a' b' c' d' e' f' : ℤ} :
    NearestKey.mk a b c d e f = NearestKey.mk a' b' c' d' e' f' ↔
      a = a' ∧ b = b' ∧ c = c' ∧ d = d' ∧ e = e' ∧ f = f' := by
  constructor
  · intro h
    have h2 : toLex (b, toLex (c, SeedKey.mk d e f)) = toLex
      (b', toLex (c', SeedKey.mk d' e' f')) :=
      congrArg (fun k : ℤ ×ₗ ℤ ×ₗ ℤ ×ₗ SeedKey => (ofLex k).2) h
    have h3 : toLex (c, SeedKey.mk d e f) = toLex (c', SeedKey.mk d' e' f') :=
      congrArg (fun k : ℤ ×ₗ ℤ ×ₗ SeedKey => (ofLex k).2) h2
    have h4 : SeedKey.mk d e f = SeedKey.mk d' e' f' :=
      congrArg (fun k : ℤ ×ₗ SeedKey => (ofLex k).2) h3
    exact ⟨congrArg (fun k : ℤ ×ₗ ℤ ×ₗ ℤ ×ₗ SeedKey => (ofLex k).1) h,
      congrArg (fun k : ℤ ×ₗ ℤ ×ₗ SeedKey => (ofLex k).1) h2,
      congrArg (fun k : ℤ ×ₗ SeedKey => (ofLex k).1) h3, SeedKey.mk_inj.mp h4⟩
  · rintro ⟨rfl, rfl, rfl, rfl, rfl, rfl⟩
    rfl

/-! ## the native grouper -/

structure Signal where
  domain : ℕ
  ratio : ℕ
  slot : ℕ
  encoding : ℕ

def valueAt {α γ : Type} (items : List α) (f : α → γ) (default : γ) (index : ℕ) : γ :=
  (items[index]?.map f).getD default

def slotOf (signals : List Signal) : ℕ → ℕ := valueAt signals Signal.slot 0

def signalEncoding (signals : List Signal) : ℕ → ℕ := valueAt signals Signal.encoding 0

/-- The indices of an encoding with the first one whose slot is free. -/
structure Candidate where
  encoding : ℕ
  indices : List ℕ
  signal : ℕ

/-- What the loop over a group keeps. -/
structure Filling where
  remaining : Remaining
  remainingCount : ℕ
  target : ℕ
  group : List ℕ := []
  usedSlots : List ℕ := []

def seedKey (entry : ℕ × List ℕ) : SeedKey :=
  .mk (-popcount entry.1) (-longLong entry.1) (entry.2.headD 0)

def seedTarget (remaining : Remaining) : ℕ :=
  (((remaining.filter fun entry => entry.2 ≠ []).argmin seedKey).map Prod.fst).getD 0

def candidates (signals : List Signal) (remaining : Remaining) (usedSlots : List ℕ) :
    List Candidate :=
  remaining.filterMap fun entry =>
    (entry.2.find? fun signal => slotOf signals signal ∉ usedSlots).map fun signal =>
      { encoding := entry.1, indices := entry.2, signal := signal }

def category (encoding target : ℕ) : ℤ :=
  if encoding = target then 0 else if encoding ||| target = target then 1 else 2

def bestKey (target : ℕ) (c : Candidate) : NearestKey :=
  .mk (category c.encoding target)
    (if category c.encoding target = 2 then popcount (c.encoding ^^^ target) else 0)
    (-popcount c.encoding) c.indices.length (-longLong c.encoding) c.signal

def fillStep (signals : List Signal) (state : Filling) : Option Filling :=
  ((candidates signals state.remaining state.usedSlots).argmin (bestKey state.target)).map
    fun best =>
      { remaining := removeSignal state.remaining best.encoding best.signal
        remainingCount := state.remainingCount - 1
        target := state.target ||| best.encoding
        group := state.group ++ [best.signal]
        usedSlots := slotOf signals best.signal :: state.usedSlots }

def fillGroup (signals : List Signal) : ℕ → Filling → Filling
  | 0, state => state
  | room + 1, state =>
    if state.remainingCount = 0 then state
    else
      match fillStep signals state with
      | none => state
      | some next => fillGroup signals room next

def groupLoop (signals : List Signal) (ratio : ℕ) :
    ℕ → Remaining → ℕ → List (List ℕ) → Option (List (List ℕ))
  | fuel, remaining, remainingCount, groups =>
    if remainingCount = 0 then some groups
    else
      match fuel with
      | 0 => none
      | fuel + 1 =>
        let filled := fillGroup signals ratio
          { remaining := remaining
            remainingCount := remainingCount
            target := seedTarget remaining }
        groupLoop signals ratio fuel filled.remaining filled.remainingCount
          (groups ++ [filled.group])

/-- `group_bucket`; `remaining_by_encoding` is a map in the order of its keys. -/
def groupBucket (fuel : ℕ) (signals : List Signal) (remaining : List ℕ) (ratio : ℕ) :
    Option (List (List ℕ)) :=
  groupLoop signals ratio fuel
    (sortedBy Prod.fst (groupBy (signalEncoding signals) remaining)) remaining.length []

def crossingsOf (signals : List Signal) (group : List ℕ) : ℕ :=
  group.foldl (fun encoding i => encoding ||| signalEncoding signals i) 0

structure GrouperOutput where
  assignment : List ℤ
  groupCount : ℕ := 0
  crossingBits : ℕ := 0

def grouperBuckets (signals : List Signal) : List (ℕ × List ℕ) :=
  Buckets.sortedBuckets
    (fun i => lex (valueAt signals Signal.domain 0 i) (valueAt signals Signal.ratio 0 i))
    id (fun key => (ofLex key).2) (List.range signals.length)

def grouperGroups (fuel : ℕ) (signals : List Signal) : Option (List (List ℕ)) :=
  ((grouperBuckets signals).mapM fun bucket => groupBucket fuel signals bucket.2 bucket.1).map
    List.flatten

def assignGroup (signals : List Signal) (output : GrouperOutput) (group : List ℕ) :
    GrouperOutput :=
  { assignment := group.foldl (fun assignment i => assignment.set i output.groupCount)
      output.assignment
    groupCount := output.groupCount + 1
    crossingBits := output.crossingBits + popcount (crossingsOf signals group) }

def runGrouper (fuel : ℕ) (signals : List Signal) : Option GrouperOutput :=
  (grouperGroups fuel signals).map fun groups =>
    groups.foldl (assignGroup signals) { assignment := List.replicate signals.length (-1) }

/-- The signals that `_run_native` writes. -/
def grouperSignals (entries : List ScheduleEntry) (encodings : List (String × ℕ))
    (guards : String → Option GuardLane) : List Signal :=
  let domains := entries.map fun entry =>
    lex (domainKey (domain entry)) (guardKey (guards entry.id))
  entries.mapIdx fun i entry =>
    { domain := domainIndex domains (lex (domainKey (domain entry)) (guardKey (guards entry.id)))
      ratio := tdmRatio entry
      slot := tdmSlot entry i
      encoding := encodingOf encodings entry.id }

def idOf (entries : List ScheduleEntry) : ℕ → String := valueAt entries ScheduleEntry.id ""

/-- `_run_native`: the assignment, the number of groups and their crossings. -/
def runNativeGrouper (fuel : ℕ) (entries : List ScheduleEntry) (encodings : List (String × ℕ))
    (guards : String → Option GuardLane) : Option (List (String × ℤ) × ℕ × ℕ) :=
  (runGrouper fuel (grouperSignals entries encodings guards)).map fun output =>
    (SortedDict.update [] (output.assignment.mapIdx fun i group => (idOf entries i, group)),
      output.groupCount, output.crossingBits)

/-! ## the oracle -/

def nearestKey (encoding target : ℕ) (multiplicity : List (ℕ × ℤ)) (index : ℕ) : NearestKey :=
  .mk (category encoding target)
    (if category encoding target = 2 then binOnes (encoding ^^^ target) else 0)
    (-binOnes encoding) ((multiplicity.lookup encoding).getD 0) (-encoding) index

structure Members where
  remaining : Remaining
  multiplicity : List (ℕ × ℤ)
  remainingCount : ℕ
  target : ℕ
  members : List ℕ := []
  usedSlots : List ℕ := []

def oracleSeedKey (entry : ℕ × List ℕ) : SeedKey :=
  .mk (-binOnes entry.1) (-entry.1) (entry.2.headD 0)

def oracleTarget (remaining : Remaining) : ℕ :=
  (((remaining.filter fun entry => entry.2 ≠ []).argmin oracleSeedKey).map Prod.fst).getD 0

/-- `compatible`, without the encodings that have no signal. -/
def compatible (slot : ℕ → ℕ) (remaining : Remaining) (usedSlots : List ℕ) : List (ℕ × ℕ) :=
  (remaining.filter fun entry => entry.2 ≠ []).filterMap fun entry =>
    (entry.2.find? fun signal => slot signal ∉ usedSlots).map fun signal => (entry.1, signal)

def memberStep (slot : ℕ → ℕ) (state : Members) : Option Members :=
  ((compatible slot state.remaining state.usedSlots).argmin fun entry =>
    nearestKey entry.1 state.target state.multiplicity entry.2).map fun selected =>
      { remaining := removeSignal state.remaining selected.1 selected.2
        multiplicity := state.multiplicity.map fun entry =>
          if entry.1 = selected.1 then (entry.1, entry.2 - 1) else entry
        remainingCount := state.remainingCount - 1
        target := state.target ||| selected.1
        members := state.members ++ [selected.2]
        usedSlots := slot selected.2 :: state.usedSlots }

def fillMembers (slot : ℕ → ℕ) : ℕ → Members → Members
  | 0, state => state
  | room + 1, state =>
    if state.remainingCount = 0 then state
    else
      match memberStep slot state with
      | none => state
      | some next => fillMembers slot room next

def oracleLoop (slot : ℕ → ℕ) (ratio : ℕ) :
    ℕ → Remaining → List (ℕ × ℤ) → ℕ → List (List ℕ × ℕ) → Option (List (List ℕ × ℕ))
  | fuel, remaining, multiplicity, remainingCount, groups =>
    if remainingCount = 0 then some groups
    else
      match fuel with
      | 0 => none
      | fuel + 1 =>
        let filled := fillMembers slot ratio
          { remaining := remaining
            multiplicity := multiplicity
            remainingCount := remainingCount
            target := oracleTarget remaining }
        oracleLoop slot ratio fuel filled.remaining filled.multiplicity filled.remainingCount
          (groups ++ [(filled.members, filled.target)])

/-- The groups of the indices of a bucket in `_oracle_groups`. -/
def oracleBucket (fuel : ℕ) (encoding slot : ℕ → ℕ) (indices : List ℕ) (ratio : ℕ) :
    Option (List (List ℕ × ℕ)) :=
  let remaining := groupBy encoding indices
  oracleLoop slot ratio fuel remaining (remaining.map fun entry => (entry.1, (entry.2.length : ℤ)))
    indices.length []

structure BucketKey where
  domain : Domain
  ratio : ℕ
  guard : Option GuardLane
  deriving DecidableEq

def bucketKey (entries : List ScheduleEntry) (guards : String → Option GuardLane) (i : ℕ) :
    BucketKey :=
  { domain := valueAt entries domain ("", "", "") i
    ratio := valueAt entries tdmRatio 0 i
    guard := valueAt entries (fun entry => guards entry.id) none i }

structure OracleOutput where
  assignment : List (String × ℤ) := []
  groupCount : ℕ := 0
  crossingBits : ℕ := 0

def oracleGroupsOf (fuel : ℕ) (entries : List ScheduleEntry) (encodings : List (String × ℕ))
    (guards : String → Option GuardLane) : Option (List (List ℕ × ℕ)) :=
  let buckets := Buckets.sortedBuckets
    (bucketKey entries guards) (fun key => lex (domainKey key.domain)
      (lex (guardKey key.guard) key.ratio))
    BucketKey.ratio (List.range entries.length)
  (buckets.mapM fun bucket =>
    oracleBucket fuel (fun i => encodingOf encodings (idOf entries i))
      (fun i => valueAt entries (fun entry => tdmSlot entry i) 0 i) bucket.2 bucket.1).map
    List.flatten

def oracleAssign (entries : List ScheduleEntry) (output : OracleOutput) (group : List ℕ × ℕ) :
    OracleOutput :=
  { assignment := SortedDict.update output.assignment
      (group.1.map fun i => (idOf entries i, (output.groupCount : ℤ)))
    groupCount := output.groupCount + 1
    crossingBits := output.crossingBits + binOnes group.2 }

def oracleGroups (fuel : ℕ) (entries : List ScheduleEntry) (encodings : List (String × ℕ))
    (guards : String → Option GuardLane) : Option (List (String × ℤ) × ℕ × ℕ) :=
  (oracleGroupsOf fuel entries encodings guards).map fun groups =>
    let output := groups.foldl (oracleAssign entries) {}
    (output.assignment, output.groupCount, output.crossingBits)

/-! ## what remains -/

structure RemainingOf (encoding : ℕ → ℕ) (left : List ℕ) (remaining : Remaining) : Prop where
  keys_nodup : (remaining.map Prod.fst).Nodup
  encoded : ∀ entry ∈ remaining, ∀ i ∈ entry.2, encoding i = entry.1
  perm : (remaining.flatMap Prod.snd).Perm left

theorem keys_removeSignal (remaining : Remaining) (encoding signal : ℕ) :
    (removeSignal remaining encoding signal).map Prod.fst = remaining.map Prod.fst := by
  unfold removeSignal
  rw [map_map]
  refine map_congr_left fun e _ => ?_
  by_cases h : e.1 = encoding
  · simp [h]
  · simp [h]

theorem flatMap_removeSignal : ∀ {remaining : Remaining} {entry : ℕ × List ℕ} {signal : ℕ},
    (remaining.map Prod.fst).Nodup → entry ∈ remaining → signal ∈ entry.2 →
    (signal :: (removeSignal remaining entry.1 signal).flatMap Prod.snd).Perm
      (remaining.flatMap Prod.snd)
  | [], _, _, _, hm, _ => absurd hm not_mem_nil
  | head :: tail, entry, signal, hn, hm, hs => by
    rw [map_cons, nodup_cons] at hn
    unfold removeSignal
    rw [map_cons, flatMap_cons, flatMap_cons]
    rcases mem_cons.mp hm with rfl | hm
    · -- no later entry has the encoding
      have ht : (tail.map fun e => if e.1 = entry.1 then (e.1, e.2.erase signal) else e) =
          tail := by
        refine (map_congr_left fun e he => ?_).trans (map_id tail)
        have hne : e.1 ≠ entry.1 := by
          intro heq
          exact hn.1 (heq ▸ mem_map_of_mem he)
        simp [hne]
      rw [ht, if_pos rfl]
      exact ((perm_cons_erase hs).symm.append_right _)
    · have hne : head.1 ≠ entry.1 := by
        intro heq
        exact hn.1 (heq ▸ mem_map_of_mem hm)
      rw [if_neg hne]
      have ih := flatMap_removeSignal hn.2 hm hs
      exact perm_middle.symm.trans (ih.append_left head.2)

variable {encoding : ℕ → ℕ} {left : List ℕ}

theorem RemainingOf.removeSignal {remaining : Remaining}
    (h : RemainingOf encoding left remaining) {entry : ℕ × List ℕ} (hen : entry ∈ remaining)
    {signal : ℕ} (hs : signal ∈ entry.2) :
    RemainingOf encoding (left.erase signal) (removeSignal remaining entry.1 signal) := by
  refine ⟨?_, ?_, ?_⟩
  · rw [keys_removeSignal]
    exact h.keys_nodup
  · intro e he i hi
    unfold Chimew.removeSignal at he
    obtain ⟨e', he', rfl⟩ := mem_map.mp he
    by_cases heq : e'.1 = entry.1
    · simp [heq] at hi ⊢
      exact (h.encoded e' he' i (mem_of_mem_erase hi)).trans heq
    · simp [heq] at hi ⊢
      exact h.encoded e' he' i hi
  · have hp := (flatMap_removeSignal h.keys_nodup hen hs).trans h.perm
    have hm : signal ∈ left := hp.mem_iff.mp mem_cons_self
    exact (hp.trans (perm_cons_erase hm)).cons_inv

theorem RemainingOf.exists_entry {remaining : Remaining}
    (h : RemainingOf encoding left remaining) (hl : left ≠ []) :
    ∃ e ∈ remaining, e.2 ≠ [] := by
  obtain ⟨i, hi⟩ := exists_mem_of_ne_nil left hl
  obtain ⟨e, he, hm⟩ := mem_flatMap.mp (h.perm.mem_iff.mpr hi)
  exact ⟨e, he, ne_nil_of_mem hm⟩

theorem remainingOf_groupBy (encoding : ℕ → ℕ) (indices : List ℕ) :
    RemainingOf encoding indices (groupBy encoding indices) := by
  refine ⟨nodup_groupBy encoding indices, ?_, ?_⟩
  · intro e he i hi
    rw [(mem_groupBy.mp he).2] at hi
    simpa using (mem_filter.mp hi).2
  · have hf : (groupBy encoding indices).flatMap Prod.snd =
        ((groupBy encoding indices).map Prod.fst).flatMap fun k =>
          indices.filter fun i => encoding i = k := by
      rw [flatMap_map]
      exact flatMap_congr fun e he => (mem_groupBy.mp he).2
    rw [hf]
    refine flatMap_filter_perm (nodup_groupBy _ _) fun i hi => ?_
    exact mem_map.mpr
      ⟨(encoding i, _), mem_groupBy.mpr ⟨mem_map_of_mem hi, rfl⟩, rfl⟩

theorem RemainingOf.of_perm {remaining remaining' : Remaining}
    (h : RemainingOf encoding left remaining) (hp : remaining'.Perm remaining) :
    RemainingOf encoding left remaining' :=
  ⟨(hp.map Prod.fst).nodup_iff.mpr h.keys_nodup,
    fun e he => h.encoded e (hp.mem_iff.mp he),
    (hp.flatMap_right Prod.snd).trans h.perm⟩

end EmuFlow.Chimew
