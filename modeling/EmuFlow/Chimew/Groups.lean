import EmuFlow.Chimew.Grouping

/-!
# What the groups are

A step of the grouper takes one signal with a free slot; the first one has the encoding the group
starts from. A group has at most as many signals as its ratio, with distinct slots, and the groups
of a bucket make it up.
-/

namespace EmuFlow.Chimew

open SortedSet List

variable {signals : List Signal} {remaining : Remaining} {usedSlots : List ℕ}

variable {c : Candidate}

theorem mem_candidates : c ∈ candidates signals remaining usedSlots ↔
    (c.encoding, c.indices) ∈ remaining ∧
      c.indices.find? (fun signal => slotOf signals signal ∉ usedSlots) = some c.signal := by
  unfold candidates
  rw [mem_filterMap]
  constructor
  · rintro ⟨entry, he, h⟩
    obtain ⟨signal, hs, rfl⟩ := Option.map_eq_some_iff.mp h
    exact ⟨he, hs⟩
  · rintro ⟨he, hs⟩
    exact ⟨_, he, by rw [hs]; rfl⟩

theorem signal_mem (h : c ∈ candidates signals remaining usedSlots) : c.signal ∈ c.indices :=
  List.mem_of_find?_eq_some (mem_candidates.mp h).2

theorem slot_free (h : c ∈ candidates signals remaining usedSlots) :
    slotOf signals c.signal ∉ usedSlots := by
  simpa using List.find?_some (mem_candidates.mp h).2

theorem fillStep_eq_some {state next : Filling} (h : fillStep signals state = some next) :
    ∃ best ∈ candidates signals state.remaining state.usedSlots,
      (∀ c ∈ candidates signals state.remaining state.usedSlots,
        bestKey state.target best ≤ bestKey state.target c) ∧
      next =
        { remaining := removeSignal state.remaining best.encoding best.signal
          remainingCount := state.remainingCount - 1
          target := state.target ||| best.encoding
          group := state.group ++ [best.signal]
          usedSlots := slotOf signals best.signal :: state.usedSlots } := by
  unfold fillStep at h
  obtain ⟨best, hb, rfl⟩ := Option.map_eq_some_iff.mp h
  exact ⟨best, argmin_mem hb, fun c hc => le_of_mem_argmin hc hb, rfl⟩

theorem exists_fillStep (state : Filling)
    (hc : c ∈ candidates signals state.remaining state.usedSlots) :
    ∃ next, fillStep signals state = some next := by
  unfold fillStep
  cases hb : (candidates signals state.remaining state.usedSlots).argmin
      (bestKey state.target) with
  | none =>
    rw [argmin_eq_none.mp hb] at hc
    exact absurd hc not_mem_nil
  | some best => exact ⟨_, rfl⟩

/-! ## one group -/

/-- The group so far and what remains make up what was there before, and the group has distinct
slots. -/
structure FillingOf (signals : List Signal) (before : List ℕ) (seed : ℕ) (state : Filling) :
    Prop where
  remains : ∃ left, RemainingOf (signalEncoding signals) left state.remaining ∧
    state.remainingCount = left.length ∧ (state.group ++ left).Perm before
  used : ∀ i ∈ state.group, slotOf signals i ∈ state.usedSlots
  slots_nodup : (state.group.map (slotOf signals)).Nodup
  target_eq : state.target =
    state.group.foldl (fun target i => target ||| signalEncoding signals i) seed

variable {left : List ℕ}

theorem fillingOf_start (h : RemainingOf (signalEncoding signals) left remaining)
    (seed : ℕ) : FillingOf signals left seed
      { remaining := remaining, remainingCount := left.length, target := seed } :=
  ⟨⟨left, h, rfl, .refl _⟩, by simp, by simp, rfl⟩

theorem encoding_of_mem (h : RemainingOf (signalEncoding signals) left remaining)
    (hc : c ∈ candidates signals remaining usedSlots) :
    signalEncoding signals c.signal = c.encoding :=
  h.encoded _ (mem_candidates.mp hc).1 _ (signal_mem hc)

theorem FillingOf.step {before : List ℕ} {seed : ℕ} {state next : Filling}
    (h : FillingOf signals before seed state) (hst : fillStep signals state = some next) :
    FillingOf signals before seed next := by
  obtain ⟨left, hl, hc, hp⟩ := h.remains
  obtain ⟨best, hb, -, rfl⟩ := fillStep_eq_some hst
  have he := (mem_candidates.mp hb).1
  have hsg := signal_mem hb
  have hm : best.signal ∈ left := hl.perm.mem_iff.mp (mem_flatMap.mpr ⟨_, he, hsg⟩)
  refine ⟨⟨left.erase best.signal, hl.removeSignal he hsg, ?_, ?_⟩, ?_, ?_, ?_⟩
  · simp [hc, length_erase_of_mem hm]
  · rw [append_assoc, singleton_append]
    exact ((perm_cons_erase hm).symm.append_left _).trans hp
  · intro i hi
    rcases List.mem_append.mp hi with hi | hi
    · exact mem_cons_of_mem _ (h.used i hi)
    · rw [mem_singleton.mp hi]
      exact mem_cons_self
  · rw [map_append, nodup_append]
    refine ⟨h.slots_nodup, by simp, ?_⟩
    intro slot hs slot' hs' heq
    obtain ⟨i, hi, rfl⟩ := mem_map.mp hs
    rw [map_singleton, mem_singleton] at hs'
    exact slot_free hb (hs' ▸ heq ▸ h.used i hi)
  · simp [foldl_append, h.target_eq, encoding_of_mem hl hb]

theorem FillingOf.fillGroup {before : List ℕ} {seed : ℕ} : ∀ {room : ℕ} {state : Filling},
    FillingOf signals before seed state →
      FillingOf signals before seed (fillGroup signals room state)
  | 0, _, h => h
  | room + 1, state, h => by
    unfold Chimew.fillGroup
    split
    · exact h
    · split
      · exact h
      · next next hn => exact FillingOf.fillGroup (h.step hn)

theorem prefix_fillGroup (signals : List Signal) : ∀ (room : ℕ) (state : Filling),
    state.group <+: (fillGroup signals room state).group ∧
      (fillGroup signals room state).group.length ≤ state.group.length + room
  | 0, state => ⟨prefix_refl _, by simp [fillGroup]⟩
  | room + 1, state => by
    unfold fillGroup
    split
    · exact ⟨prefix_refl _, by omega⟩
    · split
      · exact ⟨prefix_refl _, by omega⟩
      · next next hn =>
        obtain ⟨best, -, -, hb⟩ := fillStep_eq_some hn
        have hg : next.group = state.group ++ [best.signal] := by rw [hb]
        obtain ⟨hp, hl⟩ := prefix_fillGroup signals room next
        refine ⟨(prefix_append _ _).trans (hg ▸ hp), hl.trans ?_⟩
        rw [hg]
        simp
        omega

/-! ## the first signal -/

theorem category_self (encoding : ℕ) : category encoding encoding = 0 := by simp [category]

theorem eq_of_category_le_zero {encoding target : ℕ} (h : category encoding target ≤ 0) :
    encoding = target := by
  unfold category at h
  split at h
  · assumption
  · split at h <;> omega

theorem category_le_of_bestKey_le {target : ℕ} {c c' : Candidate}
    (h : bestKey target c ≤ bestKey target c') :
    category c.encoding target ≤ category c'.encoding target := by
  rcases (Prod.Lex.toLex_le_toLex (α := ℤ)).mp h with hlt | ⟨heq, -⟩
  · exact le_of_lt hlt
  · exact le_of_eq heq

theorem mem_seedTarget {encoding : ℕ → ℕ}
    (h : RemainingOf encoding left remaining) (hl : left ≠ []) :
    ∃ e ∈ remaining, e.2 ≠ [] ∧ e.1 = seedTarget remaining := by
  obtain ⟨e, he, hne⟩ := h.exists_entry hl
  unfold seedTarget
  cases hs : (remaining.filter fun e => e.2 ≠ []).argmin seedKey with
  | none =>
    have hn := argmin_eq_none.mp hs
    rw [filter_eq_nil_iff] at hn
    exact absurd (decide_eq_true hne) (hn e he)
  | some seed =>
    obtain ⟨hm, hsd⟩ := mem_filter.mp (argmin_mem hs)
    exact ⟨seed, hm, of_decide_eq_true hsd, rfl⟩

theorem fillStep_first (h : RemainingOf (signalEncoding signals) left remaining)
    (hl : left ≠ []) (count : ℕ) : ∃ next first, fillStep signals
        { remaining := remaining, remainingCount := count, target := seedTarget remaining } =
        some next ∧
      next.group = [first] ∧ signalEncoding signals first = seedTarget remaining := by
  obtain ⟨e, he, hne, hs⟩ := mem_seedTarget h hl
  obtain ⟨i, indices, hi⟩ := exists_cons_of_ne_nil hne
  have hc : ({ encoding := e.1, indices := e.2, signal := i } : Candidate) ∈
      candidates signals remaining [] := by
    refine mem_candidates.mpr ⟨he, ?_⟩
    simp [hi]
  obtain ⟨next, hn⟩ := exists_fillStep
    { remaining := remaining, remainingCount := count, target := seedTarget remaining } hc
  obtain ⟨best, hb, hm, rfl⟩ := fillStep_eq_some hn
  refine ⟨_, best.signal, hn, rfl, ?_⟩
  rw [encoding_of_mem h hb]
  have hle := category_le_of_bestKey_le (hm _ hc)
  rw [show category e.1 (seedTarget remaining) = 0 by rw [hs, category_self]] at hle
  exact eq_of_category_le_zero hle

/-- The groups make up the indices; each has room for its signals and distinct slots. -/
structure GroupsOf (slot : ℕ → ℕ) (ratio : ℕ) (indices : List ℕ) (groups : List (List ℕ)) :
    Prop where
  flatten_perm : groups.flatten.Perm indices
  length_le : ∀ group ∈ groups, group.length ≤ ratio
  slots_nodup : ∀ group ∈ groups, (group.map slot).Nodup

theorem fillGroup_start (h : RemainingOf (signalEncoding signals) left remaining)
    (hl : left ≠ []) {ratio : ℕ} (hrt : 0 < ratio) {filled : Filling}
    (hfd : filled = fillGroup signals ratio
      { remaining := remaining, remainingCount := left.length, target := seedTarget remaining }) :
    FillingOf signals left (seedTarget remaining) filled ∧ filled.group ≠ [] ∧
      filled.group.length ≤ ratio ∧
      filled.target = filled.group.foldl (fun target i =>
        target ||| signalEncoding signals i) 0 := by
  have hfl : FillingOf signals left (seedTarget remaining) filled :=
    hfd ▸ (fillingOf_start h (seedTarget remaining)).fillGroup
  obtain ⟨room, rfl⟩ : ∃ room, ratio = room + 1 := ⟨ratio - 1, by omega⟩
  obtain ⟨next, first, hn, hg, hfr⟩ := fillStep_first h hl left.length
  have hln : left.length ≠ 0 := by simpa using hl
  have hf : filled = fillGroup signals room next := by
    rw [hfd]
    unfold fillGroup
    simp only [hln, if_false, hn]
    cases room <;> rfl
  obtain ⟨⟨rest, hr⟩, hb⟩ := prefix_fillGroup signals room next
  rw [← hf, hg, singleton_append] at hr
  rw [← hf, hg] at hb
  refine ⟨hfl, by simp [← hr], by simpa [Nat.add_comm] using hb, ?_⟩
  rw [hfl.target_eq, ← hr]
  simp [hfr]

/-- The loop groups every entry, each group within its ratio and its slots apart. -/
theorem groupLoop_spec {ratio : ℕ} (hr : 0 < ratio) : ∀ {fuel : ℕ} {left : List ℕ}
    {remaining : Remaining} {groups : List (List ℕ)},
    RemainingOf (signalEncoding signals) left remaining → left.length ≤ fuel →
    ∃ groups', groupLoop signals ratio fuel remaining left.length groups = some
      (groups ++ groups') ∧
      GroupsOf (slotOf signals) ratio left groups' := by
  intro fuel
  induction fuel with
  | zero =>
    intro left remaining groups _ hf
    obtain rfl : left = [] := by simpa using hf
    exact ⟨[], by simp [groupLoop], by simp, by simp, by simp⟩
  | succ fuel ih =>
    intro left remaining groups h hf
    by_cases hl : left = []
    · subst hl
      exact ⟨[], by simp [groupLoop], by simp, by simp, by simp⟩
    · obtain ⟨filled, hfd⟩ : ∃ filled, filled = fillGroup signals ratio
          { remaining := remaining, remainingCount := left.length, target :=
            seedTarget remaining } :=
        ⟨_, rfl⟩
      obtain ⟨hfl, hne, hln, -⟩ := fillGroup_start h hl hr hfd
      obtain ⟨rest, hrs, hc, hpr⟩ := hfl.remains
      have hsh : rest.length ≤ fuel := by
        have hs := hpr.length_eq
        have hp := length_pos_iff.mpr hne
        rw [length_append] at hs
        omega
      obtain ⟨groups', hlp, hgp⟩ := @ih rest _ (groups ++ [filled.group]) hrs hsh
      refine ⟨filled.group :: groups', ?_, ?_, ?_, ?_⟩
      · unfold groupLoop
        rw [if_neg (by simpa using hl)]
        dsimp only
        rw [← hfd, hc, hlp, append_assoc, singleton_append]
      · rw [flatten_cons]
        exact (hgp.flatten_perm.append_left _).trans hpr
      · intro group hg
        rcases mem_cons.mp hg with rfl | hg
        · exact hln
        · exact hgp.length_le group hg
      · intro group hg
        rcases mem_cons.mp hg with rfl | hg
        · exact hfl.slots_nodup
        · exact hgp.slots_nodup group hg

end EmuFlow.Chimew
