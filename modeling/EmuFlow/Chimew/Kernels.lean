import EmuFlow.Chimew.GroupResults
import EmuFlow.Chimew.Objective

/-!
# The kernels and their oracles

The grouper computes what its oracle in Python computes. The refiner does where both judge every
deal alike: the oracle adds up the groups in the order of a set.
-/

namespace EmuFlow.Chimew

open Check SortedSet Buckets List

variable {n : ℕ} {entries : Entries n} {input : RefinementInput}

/-! ## the buckets -/

theorem slotKey_injective {s s' : Option ℕ} (h : slotKey s = slotKey s') : s = s' := by
  obtain ⟨hs, hv⟩ := lex_inj.mp h
  cases s with
  | none =>
    cases s' with
    | none => rfl
    | some slot' => simp at hs
  | some slot =>
    cases s' with
    | none => simp at hs
    | some slot' =>
      simp at hv
      rw [hv]

theorem RefineKey.ext_rank {key key' : RefineKey} (hr : key.domainRank = key'.domainRank)
    (hrt : key.ratio = key'.ratio) (he : key.encoding = key'.encoding) : key = key' := by
  obtain ⟨hd, h⟩ := lex_inj.mp hr
  obtain ⟨hg, hs⟩ := lex_inj.mp h
  have hd := domainKey_injective hd
  have hg := guardKey_injective hg
  have hs := slotKey_injective hs
  cases key
  cases key'
  simp_all

def keyBuckets (entries : Entries n) (input : RefinementInput) : List (ℕ × List (Fin n)) :=
  sortedBuckets (refineKey entries input)
    (fun key => lex key.domainRank (lex key.ratio key.encoding)) RefineKey.encoding (finRange n)

theorem refinerBuckets_eq :
    refinerBuckets (refinerSignals entries input) = keyBuckets entries input := by
  have hm : ∀ i : Fin n, (refineKey entries input i).domainRank ∈
      (finRange n).map fun j => (refineKey entries input j).domainRank :=
    fun i => mem_map_of_mem (mem_finRange i)
  unfold refinerBuckets keyBuckets
  refine sortedBuckets_congr ?_ ?_ ?_ ?_
  · intro i _ j _
    have hle := domainIndex_le_iff (hm i) (hm j)
    have hge := domainIndex_le_iff (hm j) (hm i)
    simp only [id, lex_le_iff, refinerSignals]
    rw [← not_le, hge, not_le, le_antisymm_iff, hle, hge, ← le_antisymm_iff]
    rfl
  · intro i _ j _ h
    exact h
  · intro i _ j _ h
    obtain ⟨hrn, h⟩ := lex_inj.mp h
    obtain ⟨hr, he⟩ := lex_inj.mp h
    exact RefineKey.ext_rank hrn hr he
  · intro i _
    rfl

theorem keyBuckets_bucket : ∀ bucket ∈ keyBuckets entries input,
    Bucket (refineKey entries input) (finRange n) bucket := by
  intro bucket hb
  obtain ⟨b, -, -, hm⟩ := mem_sortedBuckets.mp hb
  have hk : ∀ i ∈ bucket.2, refineKey entries input i = refineKey entries input b := by
    intro i hi
    rw [hm] at hi
    exact of_decide_eq_true (mem_filter.mp hi).2
  refine ⟨?_, fun i _ => mem_finRange i, fun i hi j hj => by rw [hk i hi, hk j hj]⟩
  rw [hm]
  exact (nodup_finRange n).filter _

theorem keyBuckets_apart :
    (keyBuckets entries input).Pairwise fun a b => ∀ i ∈ a.2, i ∉ b.2 := by
  have hnd : ((keyBuckets entries input).flatMap Prod.snd).Nodup :=
    flatMap_sortedBuckets_perm.nodup_iff.mpr (nodup_finRange n)
  exact (nodup_flatMap.mp hnd).2.imp fun h i hi hj => h hi hj

def refinerOutput (entries : Entries n) (input : RefinementInput) : RefinerOutput (Fin n) :=
  refineAll (fun i => (refinerSignals entries input i).sourceY)
    (refineBucket (refinerSignals entries input)) (refinerStart (refinerSignals entries input))
    (refinerBuckets (refinerSignals entries input))
    (sortedSet ((finRange n).map fun i => (refinerSignals entries input i).group))

/-- The oracle's run, on the native signals. -/
def replayOutput (orders : SetOrders) (entries : Entries n) (input : RefinementInput) :
    RefinerOutput (Fin n) :=
  refineAll (fun i => (refinerSignals entries input i).sourceY)
    (refineWith orders.affected (fun i => (refinerSignals entries input i).sourceY)
      fun i => (refinerSignals entries input i).encoding)
    (refinerStart (refinerSignals entries input)) (refinerBuckets (refinerSignals entries input))
    (orders.all ((finRange n).map fun i => (refinerSignals entries input i).group))

theorem oracleRefine_eq (orders : SetOrders) :
    (∀ i, (oracleRefine orders entries input).assignment (entries.entry i).id =
        (replayOutput orders entries input).assignment i) ∧
      (oracleRefine orders entries input).accepted = (replayOutput orders entries input).accepted ∧
      (oracleRefine orders entries input).moved = (replayOutput orders entries input).moved ∧
      (oracleRefine orders entries input).before = (replayOutput orders entries input).before ∧
      (oracleRefine orders entries input).after = (replayOutput orders entries input).after := by
  have hf := entries.id_strictMono
  have hy : ∀ i, input.positions (entries.entry i).id =
      (refinerSignals entries input i).sourceY := fun _ => rfl
  have he : ∀ i, encodingOf input.encodings (entries.entry i).id =
      (refinerSignals entries input i).encoding := fun _ => rfl
  obtain ⟨start, hs⟩ : ∃ start : Refined String, start =
      { group := input.initial
        members := fun group => ((finRange n).map fun i => (entries.entry i).id).filter
          fun id => input.initial id = group } := ⟨_, rfl⟩
  have hr : Renames (fun i => (entries.entry i).id)
      (refinerStart (refinerSignals entries input)) start := by
    rw [hs]
    refine ⟨fun _ => rfl, fun g => ?_, rfl, rfl⟩
    show List.filter _ _ = (groupMembers _ g).map _
    unfold groupMembers
    rw [filter_map]
    rfl
  have hrn := Renames.foldl_refineWith hf hy he orders.affected
    (refinerBuckets (refinerSignals entries input)) hr
  have hg : ((finRange n).map fun i => (entries.entry i).id).map input.initial =
      (finRange n).map fun i => (refinerSignals entries input i).group := by
    rw [map_map]
    rfl
  have hb : oracleRefineBuckets entries input =
      (refinerBuckets (refinerSignals entries input)).map
        fun b => (b.1, b.2.map fun i => (entries.entry i).id) := by
    rw [refinerBuckets_eq]
    rfl
  unfold oracleRefine replayOutput refineAll
  dsimp only
  rw [hg, hb]
  subst hs
  exact ⟨hrn.group, hrn.accepted, hrn.moved, renamed_objective hy hr.members _,
    renamed_objective hy hrn.members _⟩

theorem consistent_refinerStart (signals : Fin n → RefinerSignal) :
    Consistent (finRange n) (refinerStart signals) := by
  refine ⟨fun g => ?_, fun g i => ?_⟩
  · exact (pairwise_lt_finRange n).filter _
  · show i ∈ (finRange n).filter _ ↔ i ∈ finRange n ∧ (signals i).group = g
    simp

theorem kept_start : Kept (refineKey entries input) (finRange n)
    (refinerStart (refinerSignals entries input)) (refinerStart (refinerSignals entries input)) :=
  ⟨consistent_refinerStart _, .refl _⟩

theorem kept_run (order : List ℕ → List ℕ) : Kept (refineKey entries input) (finRange n)
    (refinerStart (refinerSignals entries input))
    ((refinerBuckets (refinerSignals entries input)).foldl
      (refineWith order (fun i => (refinerSignals entries input i).sourceY)
        fun i => (refinerSignals entries input i).encoding)
      (refinerStart (refinerSignals entries input))) := by
  rw [refinerBuckets_eq]
  exact refine_run order _ _ (nodup_finRange n) kept_start keyBuckets_bucket

/-! ## the two orders -/

/-- Every deal that moves a signal is judged alike, the groups added up in ascending order and in
the order of the set. -/
def OrdersAgree (orders : SetOrders) (entries : Entries n) (input : RefinementInput) : Prop :=
  SameVerdicts sortedSet orders.affected (fun i => (refinerSignals entries input i).sourceY)
    (fun i => (refinerSignals entries input i).encoding)
    (refinerBuckets (refinerSignals entries input)) (refinerStart (refinerSignals entries input))

/-- The positions are multiples of one power of two, none below `2 ^ -38`, and stay in the range
where the objective has no rounding. -/
def PositionsExact (entries : Entries n) (input : RefinementInput) : Prop :=
  ∃ k, Exact k (fun i => (refinerSignals entries input i).sourceY) (finRange n)

/-- The two runs come out the same where the deals are judged alike, and only there. -/
theorem foldl_keyBuckets_iff (orders : SetOrders) (entries : Entries n) (input : RefinementInput)
    (run : (List ℕ → List ℕ) → Refined (Fin n))
    (hr : run = fun order => (keyBuckets entries input).foldl
      (refineWith order (fun i => (refinerSignals entries input i).sourceY)
        fun i => (refinerSignals entries input i).encoding)
      (refinerStart (refinerSignals entries input))) :
    (OrdersAgree orders entries input → run sortedSet = run orders.affected) ∧
      ((∀ i, (run sortedSet).group i = (run orders.affected).group i) →
        OrdersAgree orders entries input) := by
  subst hr
  unfold OrdersAgree
  rw [refinerBuckets_eq]
  obtain ⟨hf, hb⟩ := foldl_refineWith_iff (nodup_finRange n) kept_start keyBuckets_bucket
    keyBuckets_apart
  exact ⟨hf, fun h => hb fun i _ => h i⟩

theorem assignment_eq_iff (orders : SetOrders) :
    (∀ i, (oracleRefine orders entries input).assignment (entries.entry i).id =
      (refinerOutput entries input).assignment i) ↔ OrdersAgree orders entries input := by
  obtain ⟨hf, hb⟩ := foldl_keyBuckets_iff orders entries input _ rfl
  simp only [(oracleRefine_eq orders).1]
  unfold replayOutput refinerOutput refineAll
  rw [refinerBuckets_eq]
  constructor
  · exact fun h => hb fun i => (h i).symm
  · exact fun h i => congrArg (Refined.group · i) (hf h).symm

theorem sortedSet_perm (groups : List ℕ) : (sortedSet groups).Perm (sortedSet groups) := .refl _

theorem PositionsExact.ordersAgree (h : PositionsExact entries input) (orders : SetOrders) :
    OrdersAgree orders entries input := by
  obtain ⟨k, hk⟩ := h
  unfold OrdersAgree
  rw [refinerBuckets_eq]
  exact Exact.sameVerdicts hk sortedSet_perm orders.affected_perm (nodup_finRange n) kept_start
    keyBuckets_bucket

/-- The oracle then has the refiner's counts and objectives, too, and the objective does not rise.
-/
theorem PositionsExact.objectives (h : PositionsExact entries input) (orders : SetOrders) :
    (oracleRefine orders entries input).accepted = (refinerOutput entries input).accepted ∧
      (oracleRefine orders entries input).moved = (refinerOutput entries input).moved ∧
      (oracleRefine orders entries input).before = (refinerOutput entries input).before ∧
      (oracleRefine orders entries input).after = (refinerOutput entries input).after ∧
      (refinerOutput entries input).after ≤ (refinerOutput entries input).before := by
  have ha := h.ordersAgree orders
  obtain ⟨k, hk⟩ := h
  have hr := (foldl_keyBuckets_iff orders entries input _ rfl).1 ha
  obtain ⟨groups, hg⟩ : ∃ groups, groups =
      (finRange n).map fun i => (refinerSignals entries input i).group := ⟨_, rfl⟩
  have hp := orders.all_perm groups
  have hs : ∀ {state : Refined (Fin n)}, Consistent (finRange n) state →
      pairwiseObjective (fun i => (refinerSignals entries input i).sourceY) state.members
          (orders.all groups) =
        pairwiseObjective (fun i => (refinerSignals entries input i).sourceY) state.members
          (sortedSet groups) := fun hst => by
    rw [(hk.objective hst (hp.nodup_iff.mpr (nodup_sortedSet _))).1,
      (hk.objective hst (nodup_sortedSet _)).1, exactObjective_perm _ hp]
  have hkp : Kept (refineKey entries input) _ _ _ := kept_run sortedSet
  have hl := hkp.consistent
  rw [refinerBuckets_eq] at hl
  have hm : ∀ i ∈ finRange n,
      (refinerStart (refinerSignals entries input)).group i ∈ sortedSet groups :=
    fun i hi => mem_sortedSet.mpr (hg ▸ mem_map_of_mem hi)
  have hle := Exact.foldl_le (fun i => (refinerSignals entries input i).encoding) hk sortedSet_perm
    (nodup_sortedSet groups) (nodup_finRange n) hm kept_start keyBuckets_bucket
  obtain ⟨-, hac, hmv, hb, haf⟩ : _ ∧ _ ∧ _ ∧ _ ∧ _ :=
    oracleRefine_eq orders
  rw [hac, hmv, hb, haf]
  unfold replayOutput refinerOutput refineAll
  rw [refinerBuckets_eq, ← hg]
  unfold refineBucket
  dsimp only
  rw [← hr]
  refine ⟨rfl, rfl, hs (consistent_refinerStart _), hs hl, ?_⟩
  have he := (hk.objective hl (nodup_sortedSet groups)).1
  have hbg := (hk.objective (consistent_refinerStart (refinerSignals entries input))
    (nodup_sortedSet groups)).1
  exact he.trans_le (hle.trans hbg.ge)

/-! ## the checks -/

def membersOf (groups : Fin n → ℕ) (g : ℕ) : List (Fin n) :=
  (finRange n).filter fun i => groups i = g

section

variable {κ : Type} {kind : Fin n → κ} {groups groups' : Fin n → ℕ}
  (h : (kindsOf kind groups (finRange n)).Perm (kindsOf kind groups' (finRange n)))
include h

theorem membersOf_perm
    (g : ℕ) : ((membersOf groups g).map kind).Perm ((membersOf groups' g).map kind) := by
  have hm : ∀ groups : Fin n → ℕ, (membersOf groups g).map kind =
      ((kindsOf kind groups (finRange n)).filter fun e => e.1 = g).map Prod.snd := by
    intro groups
    unfold membersOf kindsOf
    rw [filter_map, map_map]
    rfl
  rw [hm, hm]
  exact (h.filter _).map _

theorem groups_same :
    sortedSet ((finRange n).map groups) = sortedSet ((finRange n).map groups') := by
  have hf : ∀ groups : Fin n → ℕ, (finRange n).map groups =
      (kindsOf kind groups (finRange n)).map Prod.fst := by
    intro groups
    unfold kindsOf
    rw [map_map]
    rfl
  refine sortedSet_congr fun g => ?_
  rw [hf groups, hf groups']
  exact (h.map Prod.fst).mem_iff

end

theorem foldl_crossings (encoding : Fin n → ℕ) (members : List (Fin n)) :
    members.foldl (fun crossings i => crossings ||| encoding i) 0 =
      (members.map encoding).foldl (fun crossings e => crossings ||| e) 0 := by
  rw [foldl_map]

theorem foldl_or_perm {l m : List ℕ} (h : l.Perm m) :
    l.foldl (fun crossings e => crossings ||| e) 0 =
      m.foldl (fun crossings e => crossings ||| e) 0 := by
  refine h.foldl_eq' (fun a _ b _ c => ?_) 0
  rw [Nat.or_assoc, Nat.or_comm a b, ← Nat.or_assoc]

variable {groups : Fin n → ℕ}

theorem groupCrossings_eq (h : (kindsOf (refineKey entries input) groups (finRange n)).Perm
    (kindsOf (refineKey entries input) (initialGroups entries input) (finRange n))) :
    groupCrossings entries input groups =
      groupCrossings entries input (initialGroups entries input) := by
  unfold groupCrossings groupedBy
  rw [groups_same h, map_map, map_map]
  refine map_congr_left fun g _ => Prod.ext rfl ?_
  have hp := (membersOf_perm h g).map RefineKey.encoding
  rw [map_map, map_map] at hp
  exact (foldl_crossings _ _).trans ((foldl_or_perm hp).trans (foldl_crossings _ _).symm)

theorem slotsClash_iff {members members' : List (Fin n)}
    (h : (members.map (refineKey entries input)).Perm (members'.map (refineKey entries input))) :
    SlotsClash entries members ↔ SlotsClash entries members' := by
  have hs : ∀ members : List (Fin n), (members.filterMap fun i => (entries.entry i).slot) =
      (members.map (refineKey entries input)).filterMap RefineKey.frozenSlot := by
    intro members
    rw [filterMap_map]
    rfl
  have hl : members.length = members'.length := by simpa using h.length_eq
  have hp := h.filterMap RefineKey.frozenSlot
  unfold SlotsClash
  dsimp only
  rw [hs, hs, hp.length_eq, hl, hp.nodup_iff]
  refine and_congr_left fun _ => ?_
  rw [← length_pos_iff, ← length_pos_iff, hp.length_eq]

theorem not_slotsClash (hv : validateInitialGroups entries input = .ok ()) {g : ℕ}
    (hg : g ∈ sortedSet ((finRange n).map (initialGroups entries input))) :
    ¬ SlotsClash entries (membersOf (initialGroups entries input) g) := by
  have hgr := forM_eq_ok.mp hv (g, membersOf (initialGroups entries input) g)
    (mem_map.mpr ⟨g, hg, rfl⟩)
  unfold validateInitialGroup at hgr
  simp only [raiseIf_bind] at hgr
  obtain ⟨-, -, hgr⟩ := hgr
  exact raiseIf_eq_ok.mp hgr

theorem PositionsExact.not_rise (h : PositionsExact entries input) {slack : ℚ} (hs : 0 ≤ slack) :
    (refinerOutput entries input).after ≤
      Binary64.add (refinerOutput entries input).before slack := by
  have hle := (h.objectives ⟨sortedSet, sortedSet, sortedSet_perm, sortedSet_perm⟩).2.2.2.2
  obtain ⟨k, hk⟩ := h
  obtain ⟨heq, hg, hlt⟩ := hk.objective
    (consistent_refinerStart (refinerSignals entries input))
    (nodup_sortedSet ((finRange n).map fun i => (refinerSignals entries input i).group))
  change (refinerOutput entries input).before = _ at heq
  rw [← heq] at hg hlt
  exact hle.trans (le_add_slack hk.least hg (heq ▸ exactObjective_nonneg _) hlt hs)

theorem checkRefinement_eq_ok (hv : validateInitialGroups entries input = .ok ())
    (he : PositionsExact entries input) (orders : SetOrders) :
    checkRefinement entries input (refinerOutput entries input)
      (oracleRefine orders entries input) =
      .ok () := by
  obtain ⟨hac, hm, hb, haf, hle⟩ := he.objectives orders
  have ha := (assignment_eq_iff orders).mpr (he.ordersAgree orders)
  have hk : (kindsOf (refineKey entries input) (refinerOutput entries input).assignment
      (finRange n)).Perm (kindsOf (refineKey entries input) (initialGroups entries input)
        (finRange n)) := (kept_run sortedSet).kinds_perm
  unfold checkRefinement
  rw [raiseIf_bind, raiseIf_bind, raiseIf_bind, forM_eq_ok]
  refine ⟨?_, ?_, ?_, ?_⟩
  · rintro (⟨i, hi⟩ | h | h | h | h)
    · exact hi (ha i).symm
    · exact h hac.symm
    · exact h hm.symm
    · exact h (.inl hb.symm)
    · exact h (.inl haf.symm)
  · exact not_lt.mpr (he.not_rise (by decide +kernel))
  · intro h
    exact h (groupCrossings_eq hk).symm
  · intro group hgr
    obtain ⟨g, hg, rfl⟩ := mem_map.mp hgr
    rw [groups_same hk] at hg
    rw [raiseIf_eq_ok]
    intro hc
    exact not_slotsClash hv hg ((slotsClash_iff (membersOf_perm hk g)).mp hc)

def sixthOf (id : String) : ScheduleEntry :=
  { id := id, link := "l", source := "a", sink := "b", ratio := some 6, ratio_pos := by simp }

def sixEntries : Entries 6 where
  entry := fun i => sixthOf (["e0", "e1", "e2", "e3", "e4", "e5"].getD i "")
  id_strictMono := by
    intro i j
    revert i j
    decide +kernel

def sixDocument : CrossingDocument where
  sllsPerFpga := 5
  entries :=
    [("e0", [3]), ("e1", [2]), ("e2", [2]), ("e3", [3]), ("e4", [4]), ("e5", [1])].map fun e =>
      { scheduleEntry := e.1, sourceSlls := e.2, sinkSlls := [],
        encoding := (e.2.map fun sll => 2 ^ sll.toNat).sum }
  signals := 6
  physicalSllCrossings := 6

/-- Two groups, 1 and 8, with positions in tenths. -/
def sixInput (tenths : List ℕ) : RefinementInput where
  encodings := [("e0", 8), ("e1", 4), ("e2", 4), ("e3", 8), ("e4", 16), ("e5", 2)]
  positions := fun id => Binary64.round
    (tenths.getD (["e0", "e1", "e2", "e3", "e4", "e5"].idxOf id) 0 / 10)
  initial := fun id => if id = "e1" ∨ id = "e4" then 1 else 8
  guards := fun _ => none

/-- CPython's order for small numbers that differ in their last three bits: by these. -/
def byLowBits (groups : List ℕ) : List ℕ := sortedBy (fun group => group % 8) groups.dedup

theorem byLowBits_perm (groups : List ℕ) : (byLowBits groups).Perm (sortedSet groups) :=
  (sortedBy_perm _ _).trans (sortedBy_perm id _).symm

def lowBits : SetOrders where
  affected := byLowBits
  all := byLowBits
  affected_perm := byLowBits_perm
  all_perm := byLowBits_perm

theorem sixInput_exact :
    PositionsExact sixEntries (sixInput [330, 5000, 2250, 5120, 5120, 18760]) := by
  have hw : ∀ i, (refinerSignals sixEntries
        (sixInput [330, 5000, 2250, 5120, 5120, 18760]) i).sourceY =
      ⌊(refinerSignals sixEntries
        (sixInput [330, 5000, 2250, 5120, 5120, 18760]) i).sourceY⌋ * 2 ^ (0 : ℤ) := by
    decide +kernel
  exact ⟨0, by decide, by decide, fun i _ => Binary64.mem_grid.mpr ⟨_, hw i⟩,
    by decide +kernel⟩

end EmuFlow.Chimew
