import EmuFlow.Chimew.GroupAgreement

/-!
# The grouping of a schedule

The buckets of the grouper and of its oracle are the same, as the domains are numbered in their
order; so the assignments are.
-/

namespace EmuFlow.Chimew

open SortedSet Buckets List

variable {entries : List ScheduleEntry} {encodings : List (String × ℕ)}
  {guards : String → Option GuardLane}

/-! ## values of the entries -/

theorem valueAt_eq {α γ : Type} {items : List α} {f : α → γ} {default : γ} {i : ℕ}
    (h : i < items.length) : valueAt items f default i = f items[i] := by
  simp [valueAt, h]

theorem length_grouperSignals :
    (grouperSignals entries encodings guards).length = entries.length := by
  simp [grouperSignals]

theorem valueAt_grouperSignals {γ : Type} (f : Signal → γ) (default : γ) {i : ℕ}
    (h : i < entries.length) : valueAt (grouperSignals entries encodings guards) f default i =
      f { domain := domainIndex (entries.map fun e =>
            lex (domainKey (domain e)) (guardKey (guards e.id)))
            (lex (domainKey (domain entries[i])) (guardKey (guards entries[i].id)))
          ratio := tdmRatio entries[i]
          slot := tdmSlot entries[i] i
          encoding := encodingOf encodings entries[i].id } := by
  simp [valueAt, grouperSignals, h]

theorem slotOf_grouperSignals : slotOf (grouperSignals entries encodings guards) =
    fun i => valueAt entries (fun e => tdmSlot e i) 0 i := by
  funext i
  by_cases h : i < entries.length
  · unfold slotOf
    rw [valueAt_grouperSignals _ _ h, valueAt_eq h]
  · simp [slotOf, valueAt, grouperSignals, not_lt.mp h]

theorem signalEncoding_grouperSignals {i : ℕ} (h : i < entries.length) :
    signalEncoding (grouperSignals entries encodings guards) i =
      encodingOf encodings (idOf entries i) := by
  unfold signalEncoding idOf
  rw [valueAt_grouperSignals _ _ h, valueAt_eq h]

/-- `_oracle_groups` sorts its buckets. -/
def oracleBuckets (entries : List ScheduleEntry) (guards : String → Option GuardLane) :
    List (ℕ × List ℕ) :=
  sortedBuckets (bucketKey entries guards)
    (fun key => lex (domainKey key.domain) (lex (guardKey key.guard) key.ratio))
    BucketKey.ratio (List.range entries.length)

theorem lex_le_iff {α β : Type} [LinearOrder α] [LinearOrder β] {a a' : α} {b b' : β} :
    lex a b ≤ lex a' b' ↔ a < a' ∨ a = a' ∧ b ≤ b' :=
  Prod.Lex.toLex_le_toLex

theorem native_key_le_iff {α β : Type} [LinearOrder α] [LinearOrder β] {keys : List (α ×ₗ β)}
    {d d' : α} {g g' : β} {r r' : ℕ} (h : lex d g ∈ keys) (h' : lex d' g' ∈ keys) :
    lex (domainIndex keys (lex d g)) r ≤ lex (domainIndex keys (lex d' g')) r' ↔
      lex d (lex g r) ≤ lex d' (lex g' r') := by
  have hle := domainIndex_le_iff h h'
  have hge := domainIndex_le_iff h' h
  have hlt : domainIndex keys (lex d g) < domainIndex keys (lex d' g') ↔ lex d g < lex d' g' := by
    rw [← not_le, ← not_le, hge]
  have heq : domainIndex keys (lex d g) = domainIndex keys (lex d' g') ↔ lex d g = lex d' g' := by
    rw [le_antisymm_iff, le_antisymm_iff, hle, hge]
  rw [lex_le_iff, hlt, heq, lex_inj, lex_le_iff, lex_le_iff]
  have hp : lex d g < lex d' g' ↔ d < d' ∨ d = d' ∧ g < g' := Prod.Lex.toLex_lt_toLex
  rw [hp, or_assoc, and_assoc, ← and_or_left]

theorem grouperBuckets_eq :
    grouperBuckets (grouperSignals entries encodings guards) = oracleBuckets entries guards := by
  unfold grouperBuckets oracleBuckets
  rw [length_grouperSignals]
  have hke : ∀ i ∈ List.range entries.length, ∃ hi : i < entries.length,
      bucketKey entries guards i =
        { domain := domain entries[i], ratio := tdmRatio entries[i],
          guard := guards entries[i].id } := by
    intro i hi
    have hi := mem_range.mp hi
    refine ⟨hi, ?_⟩
    unfold bucketKey
    rw [valueAt_eq hi, valueAt_eq hi, valueAt_eq hi]
  refine sortedBuckets_congr ?_ ?_ ?_ ?_
  · intro i hi j hj
    obtain ⟨hi, hk⟩ := hke i hi
    obtain ⟨hj, hky⟩ := hke j hj
    rw [hk, hky, valueAt_grouperSignals _ _ hi, valueAt_grouperSignals _ _ hi,
      valueAt_grouperSignals _ _ hj, valueAt_grouperSignals _ _ hj]
    exact native_key_le_iff (mem_map.mpr ⟨_, getElem_mem hi, rfl⟩)
      (mem_map.mpr ⟨_, getElem_mem hj, rfl⟩)
  · intro i _ j _ h
    exact h
  · intro i hi j hj h
    obtain ⟨hd, h⟩ := lex_inj.mp h
    obtain ⟨hg, hr⟩ := lex_inj.mp h
    have hd := domainKey_injective hd
    have hg := guardKey_injective hg
    revert hd hg hr
    cases bucketKey entries guards i
    cases bucketKey entries guards j
    rintro rfl rfl rfl
    rfl
  · intro i hi
    obtain ⟨hi, hk⟩ := hke i hi
    rw [hk, valueAt_grouperSignals _ _ hi, valueAt_grouperSignals _ _ hi]
    rfl

/-! ## the groups -/

theorem exists_mapM_option {α β : Type} {f : α → Option β} {P : α → β → Prop} :
    ∀ {l : List α}, (∀ a ∈ l, ∃ b, f a = some b ∧ P a b) →
      ∃ bs, l.mapM f = some bs ∧ Forall₂ P l bs
  | [], _ => ⟨[], rfl, .nil⟩
  | a :: l, h => by
    obtain ⟨b, hb, hP⟩ := h a mem_cons_self
    obtain ⟨bs, hbs, ha⟩ := exists_mapM_option fun x hx => h x (mem_cons_of_mem _ hx)
    refine ⟨b :: bs, ?_, .cons hP ha⟩
    rw [mapM_cons, hb, hbs]
    rfl

def withCrossings (signals : List Signal) (group : List ℕ) : List ℕ × ℕ :=
  (group, crossingsOf signals group)

theorem groupBy_congr {β κ : Type} [DecidableEq κ] {f g : β → κ} {l : List β}
    (h : ∀ b ∈ l, f b = g b) : Keyed.groupBy f l = Keyed.groupBy g l := by
  unfold Keyed.groupBy
  refine foldl_ext _ _ _ fun groups b hb => ?_
  rw [h b hb]

theorem exists_groupBucket {signals : List Signal} {indices : List ℕ} {ratio fuel : ℕ}
    {encoding : ℕ → ℕ} (hrt : 0 < ratio) (hf : indices.length ≤ fuel)
    (he : ∀ i ∈ indices, signalEncoding signals i = encoding i)
    (hlt : ∀ i ∈ indices, encoding i < 2 ^ 62) :
    ∃ groups, groupBucket fuel signals indices ratio = some groups ∧
      GroupsOf (slotOf signals) ratio indices groups ∧
      oracleBucket fuel encoding (slotOf signals) indices ratio =
        some (groups.map (withCrossings signals)) := by
  have hp := sortedBy_perm Prod.fst (Keyed.groupBy (signalEncoding signals) indices)
  have hr := (remainingOf_groupBy (signalEncoding signals) indices).of_perm hp
  have hk : SmallKeys (sortedBy Prod.fst (Keyed.groupBy (signalEncoding signals) indices)) := by
    refine ⟨hr.keys_nodup, fun e her => ?_⟩
    obtain ⟨hm, -⟩ := Keyed.mem_groupBy.mp (hp.mem_iff.mp her)
    obtain ⟨i, hi, heq⟩ := mem_map.mp hm
    rw [← heq, he i hi]
    exact hlt i hi
  obtain ⟨groups, hg, hs⟩ := @groupLoop_spec signals ratio hrt fuel indices _ []
    hr hf
  rw [nil_append] at hg
  refine ⟨groups, hg, hs, ?_⟩
  have ho := @oracleLoop_eq signals ratio hrt fuel indices _ _ [] hr hp hk
  unfold oracleBucket
  rw [groupBy_congr (g := encoding) he] at ho hg
  rw [hg] at ho
  exact ho

theorem mapM_option_of_forall₂ {α β γ : Type} {f : α → Option γ} {k : β → γ} {l : List α}
    {bs : List β} (h : Forall₂ (fun a b => f a = some (k b)) l bs) :
    l.mapM f = some (bs.map k) := by
  induction h with
  | nil => rfl
  | cons ha _ ih =>
    rw [mapM_cons, ha, ih]
    rfl

theorem flatten_perm_of_forall₂ {buckets : List (ℕ × List ℕ)} {groups : List (List (List ℕ))}
    (h : Forall₂ (fun b gs => gs.flatten.Perm b.2) buckets groups) :
    groups.flatten.flatten.Perm (buckets.flatMap Prod.snd) := by
  induction h with
  | nil => simp
  | cons ha _ ih =>
    rw [flatten_cons, flatten_append, flatMap_cons]
    exact ha.append ih

theorem exists_of_mem_flatten_forall₂ {α β : Type} {P : α → List β → Prop} {l : List α}
    {groups : List (List β)} (h : Forall₂ P l groups) {b : β} (hb : b ∈ groups.flatten) :
    ∃ a ∈ l, ∃ gs, P a gs ∧ b ∈ gs := by
  induction h with
  | nil => simp at hb
  | cons hab _ ih =>
    rw [flatten_cons, List.mem_append] at hb
    rcases hb with hb | hb
    · exact ⟨_, mem_cons_self, _, hab, hb⟩
    · obtain ⟨a, ha, gs, hP, hg⟩ := ih hb
      exact ⟨a, mem_cons_of_mem _ ha, gs, hP, hg⟩

/-- Every entry is in one group, and a group has one domain, ratio and guarded lane, room, and
distinct slots. -/
structure GroupingOf (entries : List ScheduleEntry) (guards : String → Option GuardLane)
    (groups : List (List ℕ)) : Prop where
  flatten_perm : groups.flatten.Perm (List.range entries.length)
  alike : ∀ group ∈ groups, ∀ i ∈ group, ∀ j ∈ group,
    bucketKey entries guards i = bucketKey entries guards j
  length_le : ∀ group ∈ groups, ∀ i ∈ group, group.length ≤ valueAt entries tdmRatio 0 i
  slots_nodup : ∀ group ∈ groups,
    (group.map fun i => valueAt entries (fun entry => tdmSlot entry i) 0 i).Nodup

theorem exists_grouperGroups {fuel : ℕ} (hf : entries.length ≤ fuel)
    (hlt : ∀ id, encodingOf encodings id < 2 ^ 62) :
    ∃ groups, grouperGroups fuel (grouperSignals entries encodings guards) = some groups ∧
      oracleGroupsOf fuel entries encodings guards =
        some (groups.map (withCrossings (grouperSignals entries encodings guards))) ∧
      GroupingOf entries guards groups := by
  have hbc : ∀ bucket ∈ oracleBuckets entries guards, ∃ groups,
      groupBucket fuel (grouperSignals entries encodings guards) bucket.2 bucket.1 = some groups ∧
        (GroupsOf (slotOf (grouperSignals entries encodings guards)) bucket.1 bucket.2 groups ∧
          oracleBucket fuel (fun i => encodingOf encodings (idOf entries i))
            (slotOf (grouperSignals entries encodings guards)) bucket.2 bucket.1 =
            some (groups.map (withCrossings (grouperSignals entries encodings guards)))) := by
    intro bucket hm
    obtain ⟨b, hb, hr, hid⟩ := mem_sortedBuckets.mp hm
    have hb := mem_range.mp hb
    have hin : ∀ i ∈ bucket.2, i < entries.length := by
      intro i hi
      rw [hid] at hi
      exact mem_range.mp (mem_filter.mp hi).1
    refine exists_groupBucket ?_ ?_ (fun i hi => signalEncoding_grouperSignals (hin i hi))
      fun i _ => hlt _
    · rw [hr]
      unfold bucketKey
      rw [valueAt_eq hb, valueAt_eq hb, valueAt_eq hb]
      exact tdmRatio_pos _
    · rw [hid]
      exact (length_filter_le _ _).trans (by simpa using hf)
  obtain ⟨groups, hgp, ha⟩ := exists_mapM_option hbc
  refine ⟨groups.flatten, ?_, ?_, ?_, ?_, ?_, ?_⟩
  · unfold grouperGroups
    rw [grouperBuckets_eq, hgp]
    rfl
  · have ho := mapM_option_of_forall₂ (ha.imp fun _ _ h => h.2)
    unfold oracleGroupsOf
    unfold oracleBuckets at ho
    rw [slotOf_grouperSignals] at ho
    dsimp only
    rw [ho]
    simp [map_flatten]
  · refine (flatten_perm_of_forall₂ (ha.imp fun _ _ h => h.1.flatten_perm)).trans ?_
    exact flatMap_sortedBuckets_perm
  · intro group hgr i hi j hj
    obtain ⟨bucket, hm, gs, hs, hg⟩ := exists_of_mem_flatten_forall₂ ha hgr
    obtain ⟨b, -, -, hid⟩ := mem_sortedBuckets.mp hm
    have hk : ∀ i ∈ group, bucketKey entries guards i = bucketKey entries guards b := by
      intro i hi
      have hin := hs.1.flatten_perm.mem_iff.mp (mem_flatten.mpr ⟨group, hg, hi⟩)
      rw [hid] at hin
      exact of_decide_eq_true (mem_filter.mp hin).2
    rw [hk i hi, hk j hj]
  · intro group hgr i hi
    obtain ⟨bucket, hm, gs, hs, hg⟩ := exists_of_mem_flatten_forall₂ ha hgr
    obtain ⟨b, -, hr, hid⟩ := mem_sortedBuckets.mp hm
    have hin := hs.1.flatten_perm.mem_iff.mp (mem_flatten.mpr ⟨group, hg, hi⟩)
    rw [hid] at hin
    have hk : bucketKey entries guards i = bucketKey entries guards b :=
      of_decide_eq_true (mem_filter.mp hin).2
    have hsm : valueAt entries tdmRatio 0 i = bucket.1 := by
      rw [hr, ← hk]
      rfl
    rw [hsm]
    exact hs.1.length_le group hg
  · intro group hgr
    obtain ⟨bucket, -, gs, hs, hg⟩ := exists_of_mem_flatten_forall₂ ha hgr
    have hsl := hs.1.slots_nodup group hg
    rwa [slotOf_grouperSignals] at hsl

/-! ## the assignments -/

theorem assignGroup_foldl {signals : List Signal} : ∀ {groups : List (List ℕ)}
    {output : GrouperOutput}, groups.flatten.Nodup →
    (∀ i ∈ groups.flatten, i < output.assignment.length) →
    (groups.foldl (assignGroup signals) output).assignment.length = output.assignment.length ∧
      (∀ i, i ∉ groups.flatten →
        (groups.foldl (assignGroup signals) output).assignment[i]? = output.assignment[i]?) ∧
      ∀ k group, groups[k]? = some group → ∀ i ∈ group,
        (groups.foldl (assignGroup signals) output).assignment[i]? =
          some ((output.groupCount + k : ℕ) : ℤ) := by
  have hs : ∀ (group : List ℕ) (a : List ℤ) (value : ℤ),
      (group.foldl (fun a i => a.set i value) a).length =
          a.length ∧
        ∀ i, (group.foldl (fun a i => a.set i value) a)[i]? =
          if i ∈ group ∧ i < a.length then some value else a[i]? := by
    intro group
    induction group with
    | nil => simp
    | cons j group ih =>
      intro a value
      rw [foldl_cons]
      obtain ⟨hl, hgt⟩ := ih (a.set j value) value
      refine ⟨by simpa using hl, fun i => ?_⟩
      rw [hgt]
      by_cases hij : j = i
      · subst hij
        by_cases hlt : j < a.length
        · simp [hlt]
        · simp [hlt]
      · simp [hij, Ne.symm hij]
  intro groups
  induction groups with
  | nil => simp
  | cons group groups ih =>
    intro output hn hb
    rw [flatten_cons] at hn hb
    obtain ⟨-, hr, hd⟩ := nodup_append.mp hn
    obtain ⟨hl, hgt⟩ := hs group output.assignment output.groupCount
    obtain ⟨ihlength, ihother, ihgroup⟩ := @ih (assignGroup signals output group) hr (by
      intro i hi
      rw [show (assignGroup signals output group).assignment.length = _ from hl]
      exact hb i (mem_append_right _ hi))
    rw [foldl_cons]
    refine ⟨ihlength.trans hl, fun i hi => ?_, fun k g hg i hi => ?_⟩
    · rw [flatten_cons, List.mem_append, not_or] at hi
      rw [ihother i hi.2]
      refine (hgt i).trans ?_
      simp [hi.1]
    · cases k with
      | zero =>
        obtain rfl : group = g := by simpa using hg
        have hnt : i ∉ groups.flatten := fun hm => hd i hi i hm rfl
        rw [ihother i hnt]
        refine (hgt i).trans ?_
        simp [hi, hb i (mem_append_left _ hi)]
      | succ k =>
        rw [ihgroup k g (by simpa using hg) i hi]
        simp [assignGroup]
        omega

def numbered (entries : List ScheduleEntry) : ℕ → List (List ℕ) → List (String × ℤ)
  | _, [] => []
  | count, group :: groups =>
    (group.map fun i => (idOf entries i, (count : ℤ))) ++ numbered entries (count + 1) groups

theorem numbered_eq {value : ℕ → ℤ} : ∀ {count : ℕ} {groups : List (List ℕ)},
    (∀ k group, groups[k]? = some group → ∀ i ∈ group, value i = ((count + k : ℕ) : ℤ)) →
    numbered entries count groups = groups.flatten.map fun i => (idOf entries i, value i)
  | _, [], _ => rfl
  | count, group :: groups, h => by
    have hr := @numbered_eq value (count + 1) groups fun k g hg i hi => by
      rw [h (k + 1) g (by simpa using hg) i hi]
      push_cast
      ring
    rw [numbered, flatten_cons, map_append, hr]
    refine congrArg (· ++ _) (map_congr_left fun i hi => ?_)
    rw [h 0 group rfl i hi]
    simp

theorem oracleAssign_foldl : ∀ {groups : List (List ℕ × ℕ)} {output : OracleOutput},
    groups.foldl (oracleAssign entries) output =
      { assignment := SortedDict.update output.assignment
          (numbered entries output.groupCount (groups.map Prod.fst))
        groupCount := output.groupCount + groups.length
        crossingBits := output.crossingBits + (groups.map fun group => binOnes group.2).sum }
  | [], output => by simp [numbered, SortedDict.update]
  | group :: groups, output => by
    rw [foldl_cons, oracleAssign_foldl]
    simp [oracleAssign, numbered, SortedDict.update, Nat.add_assoc, Nat.add_comm 1]

theorem assignGroup_counts {signals : List Signal} : ∀ {groups : List (List ℕ)}
    {output : GrouperOutput},
    (groups.foldl (assignGroup signals) output).groupCount = output.groupCount + groups.length ∧
      (groups.foldl (assignGroup signals) output).crossingBits = output.crossingBits +
        (groups.map fun group => popcount (crossingsOf signals group)).sum
  | [], output => by simp
  | group :: groups, output => by
    obtain ⟨hc, hb⟩ := @assignGroup_counts signals groups (assignGroup signals output group)
    rw [foldl_cons, hc, hb]
    simp [assignGroup, Nat.add_assoc, Nat.add_comm 1]

theorem crossingsOf_lt {signals : List Signal} (h : ∀ i, signalEncoding signals i < 2 ^ 62)
    (group : List ℕ) : crossingsOf signals group < 2 ^ 62 := by
  unfold crossingsOf
  suffices hf : ∀ (l : List ℕ) (c : ℕ), c < 2 ^ 62 →
      l.foldl (fun encoding i => encoding ||| signalEncoding signals i) c < 2 ^ 62 from
    hf group 0 (by norm_num)
  intro l
  induction l with
  | nil => simp
  | cons i l ih =>
    intro c hc
    exact ih _ (Nat.or_lt_two_pow hc (h i))

theorem signalEncoding_lt (hlt : ∀ id, encodingOf encodings id < 2 ^ 62) (i : ℕ) :
    signalEncoding (grouperSignals entries encodings guards) i < 2 ^ 62 := by
  by_cases h : i < entries.length
  · rw [signalEncoding_grouperSignals h]
    exact hlt _
  · simp [signalEncoding, valueAt, grouperSignals, not_lt.mp h]

theorem map_idOf_range : (List.range entries.length).map (idOf entries) =
    entries.map ScheduleEntry.id := by
  refine ext_getElem (by simp) fun i h _ => ?_
  have h : i < entries.length := by simpa using h
  rw [getElem_map, getElem_range, getElem_map]
  exact valueAt_eq h

/-- The grouper and its oracle number the same groups. -/
theorem runNativeGrouper_eq {fuel : ℕ} (hfl : entries.length ≤ fuel)
    (hid : (entries.map ScheduleEntry.id).Nodup)
    (hlt : ∀ id, encodingOf encodings id < 2 ^ 62) :
    ∃ groups result, grouperGroups fuel (grouperSignals entries encodings guards) = some groups ∧
      oracleGroupsOf fuel entries encodings guards =
        some (groups.map (withCrossings (grouperSignals entries encodings guards))) ∧
      GroupingOf entries guards groups ∧
      runNativeGrouper fuel entries encodings guards = some result ∧
      oracleGroups fuel entries encodings guards = some result := by
  obtain ⟨groups, hg, hor, hs⟩ := @exists_grouperGroups entries encodings guards fuel
    hfl hlt
  obtain ⟨output, ho⟩ : ∃ output, output = groups.foldl
      (assignGroup (grouperSignals entries encodings guards))
      { assignment := List.replicate entries.length (-1) } := ⟨_, rfl⟩
  have hnd : groups.flatten.Nodup := hs.flatten_perm.nodup_iff.mpr nodup_range
  obtain ⟨hln, -, ha⟩ := @assignGroup_foldl (grouperSignals entries encodings guards)
    groups { assignment := List.replicate entries.length (-1) } hnd (by
      intro i hi
      simpa using hs.flatten_perm.mem_iff.mp hi)
  rw [← ho] at hln ha
  have hl : output.assignment.length = entries.length := by simpa using hln
  have hn : numbered entries 0 groups = groups.flatten.map
      fun i => (idOf entries i, (output.assignment[i]?).getD (-1)) := by
    refine numbered_eq fun k group hgp i hi => ?_
    rw [ha k group hgp i hi]
    simp
  have hp : (output.assignment.mapIdx fun i group => (idOf entries i, group)) =
      (List.range entries.length).map
        fun i => (idOf entries i, (output.assignment[i]?).getD (-1)) := by
    refine ext_getElem (by simp [hl]) fun i h _ => ?_
    have h : i < output.assignment.length := by simpa using h
    simp [h]
  have hk : (((List.range entries.length).map
      fun i => (idOf entries i, (output.assignment[i]?).getD (-1))).map Prod.fst).Nodup := by
    rw [map_map]
    show ((List.range entries.length).map (idOf entries)).Nodup
    rw [map_idOf_range]
    exact hid
  have hd : SortedDict.update []
        (output.assignment.mapIdx fun i group => (idOf entries i, group)) =
      SortedDict.update [] (numbered entries 0 groups) := by
    rw [hp, hn]
    exact SortedDict.update_perm SortedDict.ascending_nil (hs.flatten_perm.map _).symm hk
  obtain ⟨hc, hb⟩ := @assignGroup_counts (grouperSignals entries encodings guards) groups
    { assignment := List.replicate entries.length (-1) }
  rw [← ho] at hc hb
  refine ⟨groups, (SortedDict.update [] (numbered entries 0 groups), groups.length,
    (groups.map fun group =>
      popcount (crossingsOf (grouperSignals entries encodings guards) group)).sum),
    hg, hor, hs, ?_, ?_⟩
  · unfold runNativeGrouper runGrouper
    rw [hg, length_grouperSignals]
    simp only [Option.map_some]
    rw [← ho, hd, hc, hb]
    simp
  · unfold oracleGroups
    rw [hor]
    simp only [Option.map_some, oracleAssign_foldl, map_map]
    have hf : groups.map (Prod.fst ∘ withCrossings (grouperSignals entries encodings guards)) =
        groups := by
      simp [Function.comp_def, withCrossings]
    have hon : (groups.map ((fun group : List ℕ × ℕ => binOnes group.2) ∘
          withCrossings (grouperSignals entries encodings guards))).sum =
        (groups.map fun group =>
          popcount (crossingsOf (grouperSignals entries encodings guards) group)).sum := by
      refine congrArg List.sum (map_congr_left fun group _ => ?_)
      exact (popcount_eq (crossingsOf_lt (signalEncoding_lt hlt) group)).symm
    rw [hf, hon]
    simp

end EmuFlow.Chimew
