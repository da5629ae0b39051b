import EmuFlow.Errors
import EmuFlow.Lib.Buckets

/-!
# Signals and their encodings

The schedule entries that `emuflow/chimew_grouping.py` and `emuflow/chimew_refinement.py` group, the
crossing encodings of their signals and the domains the native tools number.
-/

namespace EmuFlow.Chimew

open Check SortedSet

structure ScheduleEntry where
  id : String
  link : String
  source : String
  sink : String
  ratio : Option ℕ := none
  slot : Option ℕ := none
  ratio_pos : ∀ r, ratio = some r → 0 < r

abbrev Domain := String × String × String

abbrev GuardLane := String × String × String × ℤ

def domain (entry : ScheduleEntry) : Domain := (entry.link, entry.source, entry.sink)

def tdmRatio (entry : ScheduleEntry) : ℕ := entry.ratio.getD 1

theorem tdmRatio_pos (entry : ScheduleEntry) : 0 < tdmRatio entry := by
  unfold tdmRatio
  cases h : entry.ratio with
  | none => simp
  | some r => exact entry.ratio_pos r h

def tdmSlot (entry : ScheduleEntry) (index : ℕ) : ℕ := entry.slot.getD index

def guardSentinel : GuardLane := ("", "", "", -1)

/-! ## keys of the sorts -/

def domainKey (d : Domain) : String ×ₗ String ×ₗ String := lex d.1 (lex d.2.1 d.2.2)

def laneKey (lane : GuardLane) : String ×ₗ String ×ₗ String ×ₗ ℤ :=
  lex lane.1 (lex lane.2.1 (lex lane.2.2.1 lane.2.2.2))

/-- `guard is not None, guard or guard_sentinel` -/
def guardKey (guard : Option GuardLane) : Bool ×ₗ String ×ₗ String ×ₗ String ×ₗ ℤ :=
  lex guard.isSome (laneKey (guard.getD guardSentinel))

theorem lex_inj {α β : Type} [LinearOrder α] {a a' : α} {b b' : β} :
    lex a b = lex a' b' ↔ a = a' ∧ b = b' := by
  unfold lex
  rw [toLex.injective.eq_iff, Prod.mk.injEq]

theorem domainKey_injective {d d' : Domain} (h : domainKey d = domainKey d') : d = d' := by
  unfold domainKey at h
  obtain ⟨h1, h⟩ := lex_inj.mp h
  obtain ⟨h2, h3⟩ := lex_inj.mp h
  exact Prod.ext h1 (Prod.ext h2 h3)

theorem laneKey_injective {lane lane' : GuardLane} (h : laneKey lane = laneKey lane') :
    lane = lane' := by
  unfold laneKey at h
  obtain ⟨h1, h⟩ := lex_inj.mp h
  obtain ⟨h2, h⟩ := lex_inj.mp h
  obtain ⟨h3, h4⟩ := lex_inj.mp h
  exact Prod.ext h1 (Prod.ext h2 (Prod.ext h3 h4))

theorem guardKey_injective {g g' : Option GuardLane} (h : guardKey g = guardKey g') : g = g' := by
  obtain ⟨hs, hl⟩ := lex_inj.mp h
  have hl := laneKey_injective hl
  cases g with
  | none =>
    cases g' with
    | none => rfl
    | some lane' => simp at hs
  | some lane =>
    cases g' with
    | none => simp at hs
    | some lane' =>
      simp at hl
      rw [hl]

/-! ## encodings -/

/-- `__builtin_popcountll` -/
def popcount (value : ℕ) : ℕ := (List.range 64).countP value.testBit

/-- `_popcount`: the ones of `bin(value)`. -/
def binOnes (value : ℕ) : ℕ := (Nat.digits 2 value).count 1

/-- `static_cast<long long>` of an unsigned number. -/
def longLong (value : ℕ) : ℤ := Int.bmod value (2 ^ 64)

theorem countP_testBit : ∀ (k n : ℕ), n < 2 ^ k →
    (List.range k).countP n.testBit = (Nat.digits 2 n).count 1
  | 0, n, h => by
    obtain rfl : n = 0 := by simpa using h
    simp
  | k + 1, n, h => by
    have hh : n / 2 < 2 ^ k := by omega
    have ht := countP_testBit k (n / 2) hh
    rw [List.range_succ_eq_map, List.countP_cons, List.countP_map]
    have hs : (List.range k).countP (n.testBit ∘ Nat.succ) =
        (List.range k).countP (n / 2).testBit := by
      refine List.countP_congr fun i _ => ?_
      simp [Nat.testBit_succ]
    rw [hs, ht]
    by_cases hn : n = 0
    · simp [hn]
    · rw [Nat.digits_def' (by omega) (Nat.pos_of_ne_zero hn), List.count_cons, Nat.testBit_zero]
      simp

theorem popcount_eq {value : ℕ} (h : value < 2 ^ 62) : popcount value = binOnes value :=
  countP_testBit 64 value (h.trans (by norm_num))

theorem longLong_eq {value : ℕ} (h : value < 2 ^ 62) : longLong value = value := by
  unfold longLong
  refine Int.bmod_eq_of_le ?_ ?_
  · omega
  · omega

/-! ## crossings -/

structure CrossingRecord where
  scheduleEntry : String
  sourceSlls : List ℤ
  sinkSlls : List ℤ
  encoding : ℕ

structure CrossingDocument where
  sllsPerFpga : ℤ
  entries : List CrossingRecord
  /-- The metrics. -/
  signals : ℕ
  physicalSllCrossings : ℕ

def crossingMask (values : List ℤ) (count : ℤ) (label : String) : Result ℕ := do
  raiseIf (¬ values.Nodup) (.validation "%s: duplicate SLL index" [label])
  raiseIf (∃ value ∈ values, value < 0 ∨ count ≤ value)
    (.validation "%s: SLL index is out of range" [label])
  return values.foldl (fun mask value => mask ||| 1 <<< value.toNat) 0

def crossingTurn (count : ℤ) (state : List (String × ℕ) × ℕ) (record : CrossingRecord) :
    Result (List (String × ℕ) × ℕ) := do
  raiseIf (record.scheduleEntry ∈ state.1.map Prod.fst)
    (.validation "duplicate Chimew crossing for %r" [record.scheduleEntry])
  let source ← crossingMask record.sourceSlls count (record.scheduleEntry ++ ".source_slls")
  let sink ← crossingMask record.sinkSlls count (record.scheduleEntry ++ ".sink_slls")
  raiseIf (record.encoding ≠ (source ||| sink <<< count.toNat))
    (.validation "Chimew crossing %r encoding is not independently derived"
      [record.scheduleEntry])
  return (state.1 ++ [(record.scheduleEntry, record.encoding)], state.2 + binOnes record.encoding)

def validateChimewCrossings (entries : List ScheduleEntry) (document : CrossingDocument) :
    Result (List (String × ℕ)) := do
  raiseIf (document.sllsPerFpga < 1)
    (ValidationError "chimew.slls_per_fpga: expected an integer >= 1")
  raiseIf (31 < document.sllsPerFpga)
    (ValidationError "Chimew v1 supports at most 31 SLLs per FPGA")
  let state ← document.entries.foldlM (crossingTurn document.sllsPerFpga) ([], 0)
  raiseIf (¬ SameSet (state.1.map Prod.fst) (entries.map ScheduleEntry.id))
    (ValidationError "Chimew crossings must cover schedule entries exactly")
  raiseIf (document.signals ≠ state.1.length ∨ document.physicalSllCrossings ≠ state.2)
    (ValidationError "Chimew crossing metrics do not agree")
  return state.1

/-- `encodings[entry_id]` -/
def encodingOf (encodings : List (String × ℕ)) (id : String) : ℕ := (encodings.lookup id).getD 0

theorem crossingMask_lt {values : List ℤ} {count : ℤ} {label : String} {mask : ℕ}
    (h : crossingMask values count label = .ok mask) : mask < 2 ^ count.toNat := by
  unfold crossingMask at h
  simp only [raiseIf_bind] at h
  obtain ⟨-, hr, h⟩ := h
  cases h
  suffices hf : ∀ (l : List ℤ) (mask : ℕ), (∀ v ∈ l, v ∈ values) → mask < 2 ^ count.toNat →
      l.foldl (fun mask value => mask ||| 1 <<< value.toNat) mask < 2 ^ count.toNat from
    hf values 0 (fun _ hv => hv) (by positivity)
  intro l
  induction l with
  | nil => simp
  | cons v l ih =>
    intro mask hs hm
    refine ih _ (fun w hw => hs w (List.mem_cons_of_mem _ hw)) ?_
    refine Nat.or_lt_two_pow hm ?_
    have hv : ¬ (v < 0 ∨ count ≤ v) := fun hb => hr ⟨v, hs v List.mem_cons_self, hb⟩
    rw [Nat.shiftLeft_eq, one_mul]
    exact Nat.pow_lt_pow_right (by omega) (by omega)

theorem encoding_lt {entries : List ScheduleEntry} {document : CrossingDocument}
    {encodings : List (String × ℕ)} (h : validateChimewCrossings entries document = .ok encodings)
    (id : String) : encodingOf encodings id < 2 ^ 62 := by
  unfold validateChimewCrossings at h
  simp only [raiseIf_bind] at h
  obtain ⟨-, hm, h⟩ := h
  obtain ⟨state, hst, h⟩ := bind_eq_ok.mp h
  simp only [raiseIf_bind] at h
  obtain ⟨-, -, h⟩ := h
  cases h
  have ha : ∀ e ∈ state.1, e.2 < 2 ^ 62 := by
    refine foldlM_invariant (P := fun s : List (String × ℕ) × ℕ => ∀ e ∈ s.1, e.2 < 2 ^ 62)
      ?_ (by simp) hst
    intro r _ s s' hs ht e he
    unfold crossingTurn at ht
    obtain ⟨-, ht⟩ := raiseIf_bind.mp ht
    obtain ⟨source, hsr, ht⟩ := bind_eq_ok.mp ht
    obtain ⟨sink, hsn, ht⟩ := bind_eq_ok.mp ht
    obtain ⟨hen, ht⟩ := raiseIf_bind.mp ht
    cases ht
    rcases List.mem_append.mp he with he | he
    · exact hs e he
    · rw [List.mem_singleton.mp he, not_not.mp hen]
      have hc : document.sllsPerFpga.toNat ≤ 31 := by omega
      have hp : (2 : ℕ) ^ document.sllsPerFpga.toNat ≤ 2 ^ 31 :=
        Nat.pow_le_pow_right (by omega) hc
      refine Nat.or_lt_two_pow ?_ ?_
      · exact ((crossingMask_lt hsr).trans_le hp).trans (by norm_num)
      · rw [Nat.shiftLeft_eq]
        calc sink * 2 ^ document.sllsPerFpga.toNat
            < 2 ^ 31 * 2 ^ 31 :=
              Nat.mul_lt_mul_of_lt_of_le ((crossingMask_lt hsn).trans_le hp) hp (by norm_num)
          _ = 2 ^ 62 := by norm_num
  unfold encodingOf
  cases hl : state.1.lookup id with
  | none => simp
  | some encoding => exact ha _ (Keyed.mem_of_lookup hl)

def domainIndex {κ : Type} [LinearOrder κ] (keys : List κ) (key : κ) : ℕ :=
  (sortedSet keys).idxOf key

theorem domainIndex_le_iff {κ : Type} [LinearOrder κ] {keys : List κ} {a b : κ} (ha : a ∈ keys)
    (hb : b ∈ keys) : domainIndex keys a ≤ domainIndex keys b ↔ a ≤ b := by
  have hs : (sortedSet keys).Pairwise (· < ·) := by
    have hle : (sortedSet keys).Pairwise fun x y => x ≤ y := pairwise_sortedBy id keys.dedup
    exact (hle.and (nodup_sortedSet keys)).imp fun h => lt_of_le_of_ne h.1 h.2
  have ha' := List.idxOf_lt_length_of_mem (mem_sortedSet.mpr ha)
  have hb' := List.idxOf_lt_length_of_mem (mem_sortedSet.mpr hb)
  have hg : (sortedSet keys)[(sortedSet keys).idxOf a] = a := List.getElem_idxOf ha'
  have hgb : (sortedSet keys)[(sortedSet keys).idxOf b] = b := List.getElem_idxOf hb'
  unfold domainIndex
  constructor
  · intro hle
    rcases Nat.lt_or_ge ((sortedSet keys).idxOf a) ((sortedSet keys).idxOf b) with hlt | hge
    · have := List.pairwise_iff_getElem.mp hs _ _ ha' hb' hlt
      rw [hg, hgb] at this
      exact this.le
    · have heq : (sortedSet keys).idxOf a = (sortedSet keys).idxOf b := le_antisymm hle hge
      rw [← hg, ← hgb]
      simp [heq]
  · intro hle
    by_contra hlt
    have := List.pairwise_iff_getElem.mp hs _ _ hb' ha' (not_le.mp hlt)
    rw [hg, hgb] at this
    exact absurd hle (not_le.mpr this)

end EmuFlow.Chimew
