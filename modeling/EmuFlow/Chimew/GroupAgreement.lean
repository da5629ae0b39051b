import EmuFlow.Chimew.Groups

/-!
# The grouper and its oracle

The two keep the same signals by encoding, in different orders, and the smallest keys tell encodings
apart; so each step takes the same signal.
-/

namespace EmuFlow.Chimew

open SortedSet Buckets List

variable {signals : List Signal}

/-- The same state, with the encodings in any order. -/
structure Simulates (s : Filling) (t : Members) : Prop where
  remaining : s.remaining.Perm t.remaining
  multiplicity : t.multiplicity = t.remaining.map fun entry => (entry.1, (entry.2.length : ℤ))
  count : s.remainingCount = t.remainingCount
  target : s.target = t.target
  members : s.group = t.members
  used : s.usedSlots = t.usedSlots

/-- The encodings are distinct and fit below the sign. -/
structure SmallKeys (remaining : Remaining) : Prop where
  nodup : (remaining.map Prod.fst).Nodup
  lt : ∀ entry ∈ remaining, entry.1 < 2 ^ 62

theorem SmallKeys.removeSignal {remaining : Remaining} (h : SmallKeys remaining)
    (encoding signal : ℕ) : SmallKeys (removeSignal remaining encoding signal) := by
  refine ⟨?_, ?_⟩
  · rw [keys_removeSignal]
    exact h.nodup
  · intro e he
    have hm := mem_map_of_mem (f := Prod.fst) he
    rw [keys_removeSignal] at hm
    obtain ⟨entry', he', heq⟩ := mem_map.mp hm
    exact heq ▸ h.lt entry' he'

variable {remaining remaining' : Remaining}

theorem SmallKeys.of_perm (h : SmallKeys remaining)
    (hp : remaining.Perm remaining') : SmallKeys remaining' :=
  ⟨(hp.map Prod.fst).nodup_iff.mp h.nodup,
    fun e he => h.lt e (hp.mem_iff.mpr he)⟩

/-! ## one signal -/

theorem compatible_eq (remaining : Remaining) (usedSlots : List ℕ) :
    compatible (slotOf signals) remaining usedSlots =
      (candidates signals remaining usedSlots).map fun c => (c.encoding, c.signal) := by
  unfold compatible candidates
  rw [map_filterMap]
  induction remaining with
  | nil => rfl
  | cons entry remaining ih =>
    by_cases he : entry.2 = []
    · rw [filter_cons_of_neg (by simp [he]), ih]
      simp [he]
    · rw [filter_cons_of_pos (by simp [he]), filterMap_cons, filterMap_cons, ih]
      cases entry.2.find? fun signal => slotOf signals signal ∉ usedSlots with
      | none => simp
      | some signal => simp

variable {usedSlots : List ℕ}

section

variable {remaining : Remaining} (h : SmallKeys remaining)
include h

theorem candidate_eq {c c' : Candidate} (hc : c ∈ candidates signals remaining usedSlots)
    (hc' : c' ∈ candidates signals remaining usedSlots) (heq : c.encoding = c'.encoding) :
    c = c' := by
  obtain ⟨hm, hf⟩ := mem_candidates.mp hc
  obtain ⟨hm', hf'⟩ := mem_candidates.mp hc'
  have hi : c.indices = c'.indices :=
    congrArg Prod.snd (inj_on_of_nodup_map h.nodup hm hm' heq)
  rw [hi, hf'] at hf
  have hs : c'.signal = c.signal := Option.some.inj hf
  cases c
  cases c'
  simp_all

theorem bestKey_injective
    (target : ℕ) {c c' : Candidate} (hc : c ∈ candidates signals remaining usedSlots)
    (hc' : c' ∈ candidates signals remaining usedSlots)
    (heq : bestKey target c = bestKey target c') : c = c' := by
  refine candidate_eq h hc hc' ?_
  obtain ⟨-, -, -, -, he, -⟩ := NearestKey.mk_inj.mp heq
  rw [longLong_eq (h.lt _ (mem_candidates.mp hc).1),
    longLong_eq (h.lt _ (mem_candidates.mp hc').1)] at he
  simpa using he

theorem bestKey_eq {target : ℕ} (htarget : target < 2 ^ 62) {c : Candidate}
    (hc : c ∈ candidates signals remaining usedSlots) :
    bestKey target c = nearestKey c.encoding target
      (remaining.map fun e => (e.1, (e.2.length : ℤ))) c.signal := by
  have he := (mem_candidates.mp hc).1
  have hlt : c.encoding < 2 ^ 62 := h.lt _ he
  have hx : c.encoding ^^^ target < 2 ^ 62 := Nat.xor_lt_two_pow hlt htarget
  have hl : (remaining.map fun e => (e.1, (e.2.length : ℤ))).lookup c.encoding =
      some (c.indices.length : ℤ) := by
    rw [Keyed.lookup_map_snd (fun indices : List ℕ => (indices.length : ℤ)),
      Keyed.lookup_of_mem h.nodup he]
    rfl
  unfold bestKey nearestKey
  rw [popcount_eq hlt, popcount_eq hx, longLong_eq hlt, hl]
  rfl

end

theorem candidates_perm (hp : remaining.Perm remaining') (usedSlots : List ℕ) :
    (candidates signals remaining usedSlots).Perm (candidates signals remaining' usedSlots) :=
  hp.filterMap _

section

variable {s : Filling} {t : Members} (h : Simulates s t) (hkeys : SmallKeys s.remaining)
  (htarget : s.target < 2 ^ 62)
include h hkeys htarget

theorem argmin_compatible :
    (compatible (slotOf signals) t.remaining t.usedSlots).argmin (fun e =>
        nearestKey e.1 t.target t.multiplicity e.2) =
      ((candidates signals s.remaining s.usedSlots).argmin (bestKey s.target)).map
        fun c => (c.encoding, c.signal) := by
  rw [compatible_eq, argmin_map, ← h.used, ← h.target, h.multiplicity]
  refine congrArg _ (Eq.symm (argmin_congr (candidates_perm h.remaining s.usedSlots) ?_ ?_))
  · intro c hc c' hc' heq
    exact bestKey_injective hkeys s.target hc hc' heq
  · intro c hc
    exact bestKey_eq (hkeys.of_perm h.remaining) htarget
      ((candidates_perm h.remaining s.usedSlots).mem_iff.mp hc)

theorem Simulates.step : (fillStep signals s = none ∧ memberStep (slotOf signals) t = none) ∨
      ∃ s' t', fillStep signals s = some s' ∧ memberStep (slotOf signals) t = some t' ∧
        Simulates s' t' ∧ SmallKeys s'.remaining ∧ s'.target < 2 ^ 62 := by
  unfold fillStep memberStep
  rw [argmin_compatible h hkeys htarget]
  cases hb : (candidates signals s.remaining s.usedSlots).argmin (bestKey s.target) with
  | none => exact .inl ⟨rfl, rfl⟩
  | some best =>
    have hm := mem_candidates.mp (argmin_mem hb)
    refine .inr ⟨_, _, rfl, rfl, ⟨?_, ?_, ?_, ?_, ?_, ?_⟩, ?_, ?_⟩
    · exact h.remaining.map _
    · -- the entry of the encoding loses one signal
      show (t.multiplicity.map fun e =>
          if e.1 = best.encoding then (e.1, e.2 - 1) else e) =
        (removeSignal t.remaining best.encoding best.signal).map
          fun e => (e.1, (e.2.length : ℤ))
      unfold removeSignal
      rw [h.multiplicity, map_map, map_map]
      refine map_congr_left fun e he => ?_
      by_cases heq : e.1 = best.encoding
      · have hs : e = (best.encoding, best.indices) :=
          inj_on_of_nodup_map (hkeys.of_perm h.remaining).nodup he
            (h.remaining.mem_iff.mp hm.1) heq
        have hin : best.signal ∈ e.2 := by
          rw [hs]
          exact List.mem_of_find?_eq_some hm.2
        have hp := length_pos_of_mem hin
        simp only [Function.comp_apply, heq, if_true, length_erase_of_mem hin]
        rw [Nat.cast_sub hp]
        rfl
      · simp [heq]
    · simp [h.count]
    · simp [h.target]
    · simp [h.members]
    · simp [h.used]
    · exact hkeys.removeSignal best.encoding best.signal
    · exact Nat.or_lt_two_pow htarget (hkeys.lt _ hm.1)

end

theorem Simulates.fill : ∀ {room : ℕ} {s : Filling} {t : Members}, Simulates s t →
    SmallKeys s.remaining → s.target < 2 ^ 62 →
    Simulates (fillGroup signals room s) (fillMembers (slotOf signals) room t)
  | 0, _, _, h, _, _ => h
  | room + 1, s, t, h, hkeys, htarget => by
    unfold fillGroup fillMembers
    rw [← h.count]
    by_cases hc : s.remainingCount = 0
    · rw [if_pos hc, if_pos hc]
      exact h
    · rw [if_neg hc, if_neg hc]
      rcases h.step hkeys htarget with ⟨hs, ht⟩ | ⟨s', t', hs, ht, hsm, hk, htg⟩
      · rw [hs, ht]
        exact h
      · rw [hs, ht]
        exact Simulates.fill hsm hk htg

theorem oracleTarget_eq (hp : remaining.Perm remaining')
    (hkeys : SmallKeys remaining) : oracleTarget remaining' = seedTarget remaining := by
  unfold oracleTarget seedTarget
  refine congrArg (fun o => (Option.map Prod.fst o).getD 0)
    (Eq.symm (argmin_congr (hp.filter _) ?_ ?_))
  · intro e he entry' he' heq
    obtain ⟨-, hen, -⟩ := SeedKey.mk_inj.mp heq
    have hm := (mem_filter.mp he).1
    have hm' := (mem_filter.mp he').1
    rw [longLong_eq (hkeys.lt _ hm), longLong_eq (hkeys.lt _ hm')] at hen
    exact inj_on_of_nodup_map hkeys.nodup hm hm' (by simpa using hen)
  · intro e he
    have hlt := hkeys.lt _ (mem_filter.mp he).1
    unfold seedKey oracleSeedKey
    rw [popcount_eq hlt, longLong_eq hlt]

theorem fillGroup_keys : ∀ {room : ℕ} {s : Filling}, SmallKeys s.remaining →
    SmallKeys (fillGroup signals room s).remaining
  | 0, _, h => h
  | room + 1, s, h => by
    unfold fillGroup
    split
    · exact h
    · split
      · exact h
      · next next hn =>
        obtain ⟨best, -, -, hb⟩ := fillStep_eq_some hn
        refine fillGroup_keys ?_
        rw [hb]
        exact h.removeSignal best.encoding best.signal

/-- **The oracle's loop makes the groups of the grouper.** -/
theorem oracleLoop_eq {ratio : ℕ} (hr : 0 < ratio) : ∀ {fuel : ℕ} {left : List ℕ}
    {remaining remaining' : Remaining} {groups : List (List ℕ)},
    RemainingOf (signalEncoding signals) left remaining → remaining.Perm remaining' →
    SmallKeys remaining → oracleLoop (slotOf signals) ratio fuel remaining'
        (remaining'.map fun e => (e.1, (e.2.length : ℤ))) left.length
        (groups.map fun group => (group, crossingsOf signals group)) =
      (groupLoop signals ratio fuel remaining left.length groups).map
        fun groups => groups.map fun group => (group, crossingsOf signals group) := by
  intro fuel
  induction fuel with
  | zero =>
    intro left remaining remaining' groups _ _ _
    unfold oracleLoop groupLoop
    by_cases hl : left = []
    · simp [hl]
    · simp [hl]
  | succ fuel ih =>
    intro left remaining remaining' groups h hp hkeys
    unfold oracleLoop groupLoop
    by_cases hl : left = []
    · simp [hl]
    · have hln : left.length ≠ 0 := by simpa using hl
      rw [if_neg hln, if_neg hln]
      dsimp only
      obtain ⟨filled, hf⟩ : ∃ filled, filled = fillGroup signals ratio
          { remaining := remaining, remainingCount := left.length, target :=
            seedTarget remaining } :=
        ⟨_, rfl⟩
      obtain ⟨members, hm⟩ : ∃ members, members = fillMembers (slotOf signals) ratio
          { remaining := remaining'
            multiplicity := remaining'.map fun e => (e.1, (e.2.length : ℤ))
            remainingCount := left.length, target := oracleTarget remaining' } := ⟨_, rfl⟩
      obtain ⟨e, he, -, hsd⟩ := mem_seedTarget h hl
      have hs : Simulates filled members := by
        rw [hf, hm]
        refine Simulates.fill ⟨hp, rfl, rfl, (oracleTarget_eq hp hkeys).symm, rfl, rfl⟩
          hkeys ?_
        show seedTarget remaining < 2 ^ 62
        rw [← hsd]
        exact hkeys.lt e he
      obtain ⟨hfn, -, -, htarget⟩ := fillGroup_start h hl hr hf
      obtain ⟨rest, hrs, hc, -⟩ := hfn.remains
      have hg : (groups.map fun group => (group, crossingsOf signals group)) ++
          [(members.members, members.target)] =
          (groups ++ [filled.group]).map fun group => (group, crossingsOf signals group) := by
        rw [map_append, ← hs.members, ← hs.target, htarget]
        rfl
      rw [← hf, ← hm, ← hs.count, hc, hs.multiplicity, hg]
      refine ih hrs hs.remaining ?_
      rw [hf]
      exact fillGroup_keys hkeys

end EmuFlow.Chimew
