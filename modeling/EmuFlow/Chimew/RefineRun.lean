import EmuFlow.Chimew.RefineSteps

/-!
# Runs of a refinement

What a bucket keeps, all of them keep; and a refinement of renamed signals is the renamed
refinement.
-/

namespace EmuFlow.Chimew

open SortedSet List
open Function (update update_of_ne)

variable {ι κ : Type} [LinearOrder ι] {sourceY : ι → ℚ} {encoding : ι → ℕ} {kind : ι → κ}
  {signals : List ι} {order order' : List ℕ → List ℕ} {state start : Refined ι}

/-! ## what is kept -/

structure Kept (kind : ι → κ) (signals : List ι) (start state : Refined ι) : Prop where
  consistent : Consistent signals state
  kinds_perm : (kindsOf kind state.group signals).Perm (kindsOf kind start.group signals)

theorem Kept.group_mem {groups : List ℕ} (h : Kept kind signals start state)
    (hs : ∀ i ∈ signals, start.group i ∈ groups) : ∀ i ∈ signals, state.group i ∈ groups := by
  intro i hi
  have hm : (state.group i, kind i) ∈ kindsOf kind state.group signals := mem_map.mpr ⟨i, hi, rfl⟩
  obtain ⟨j, hj, heq⟩ := mem_map.mp (h.kinds_perm.mem_iff.mp hm)
  have hg : start.group j = state.group i := congrArg Prod.fst heq
  exact hg ▸ hs j hj

/-- What the buckets of a run have: members of the signals, of one kind. -/
structure Bucket (kind : ι → κ) (signals : List ι) (bucket : ℕ × List ι) : Prop where
  nodup : bucket.2.Nodup
  sub : ∀ i ∈ bucket.2, i ∈ signals
  kind : ∀ i ∈ bucket.2, ∀ j ∈ bucket.2, kind i = kind j

theorem kept_refineWith (order : List ℕ → List ℕ) (sourceY : ι → ℚ) (encoding : ι → ℕ)
    (hnd : signals.Nodup) (h : Kept kind signals start state) {bucket : ℕ × List ι}
    (hbucket : Bucket kind signals bucket) :
    Kept kind signals start (refineWith order sourceY encoding state bucket) := by
  classical
  rw [refineWith_eq sourceY encoding h.consistent hbucket.nodup hbucket.sub]
  split
  · have hd := h.consistent.deal sourceY encoding hbucket.nodup hbucket.sub
    exact ⟨⟨hd.sorted, hd.mem_iff⟩, (dealt_perm sourceY encoding hnd hbucket.nodup hbucket.sub
      hbucket.kind state bucket.1 (oldGroups sourceY state bucket)).trans h.kinds_perm⟩
  · exact h

theorem refine_run (order : List ℕ → List ℕ) (sourceY : ι → ℚ) (encoding : ι → ℕ)
    (hnd : signals.Nodup) : ∀ {buckets : List (ℕ × List ι)} {state : Refined ι},
      Kept kind signals start state → (∀ bucket ∈ buckets, Bucket kind signals bucket) →
      Kept kind signals start (buckets.foldl (refineWith order sourceY encoding) state)
  | [], _, h, _ => h
  | bucket :: buckets, state, h, ha => by
    have hs := kept_refineWith order sourceY encoding hnd h (ha bucket mem_cons_self)
    rw [foldl_cons]
    exact refine_run order sourceY encoding hnd hs fun b hb => ha b (mem_cons_of_mem _ hb)

/-! ## two orders -/

/-- A deal that moves a signal is judged alike in either order. -/
def SameVerdict (order order' : List ℕ → List ℕ) (sourceY : ι → ℚ) (encoding : ι → ℕ)
    (state : Refined ι) (bucket : ℕ × List ι) : Prop :=
  Moves sourceY encoding state bucket →
    (Rises sourceY state.members (deal sourceY encoding state bucket).members
        (order (bucket.2.map state.group)) ↔
      Rises sourceY state.members (deal sourceY encoding state bucket).members
        (order' (bucket.2.map state.group)))

/-- The deals of a run are judged alike, each in the state before it. -/
def SameVerdicts (order order' : List ℕ → List ℕ) (sourceY : ι → ℚ) (encoding : ι → ℕ) :
    List (ℕ × List ι) → Refined ι → Prop
  | [], _ => True
  | bucket :: buckets, state =>
    SameVerdict order order' sourceY encoding state bucket ∧
      SameVerdicts order order' sourceY encoding buckets
        (refineWith order sourceY encoding state bucket)

section

variable (h : Consistent signals state) {bucket : ℕ × List ι} (hbucket : bucket.2.Nodup)
  (hsub : ∀ i ∈ bucket.2, i ∈ signals)
include h hbucket hsub

theorem refineWith_group_of_not_mem {i : ι} (hi : i ∉ bucket.2) :
    (refineWith order sourceY encoding state bucket).group i = state.group i := by
  classical
  rw [refineWith_eq sourceY encoding h hbucket hsub]
  split
  · exact deal_group_of_not_mem sourceY encoding hi
  · rfl

theorem refineWith_congr (hs : SameVerdict order order' sourceY encoding state bucket) :
    refineWith order sourceY encoding state bucket =
      refineWith order' sourceY encoding state bucket := by
  classical
  rw [refineWith_eq sourceY encoding h hbucket hsub, refineWith_eq sourceY encoding h hbucket hsub]
  refine if_congr (and_congr_right fun hm => not_congr (hs hm)) rfl rfl

theorem refineWith_differ (hd : ¬ SameVerdict order order' sourceY encoding state bucket) :
    ∃ i ∈ bucket.2, (refineWith order sourceY encoding state bucket).group i ≠
      (refineWith order' sourceY encoding state bucket).group i := by
  classical
  have hne : (refineWith order sourceY encoding state bucket).group ≠
      (refineWith order' sourceY encoding state bucket).group := by
    unfold SameVerdict at hd
    push Not at hd
    obtain ⟨hm, hcs⟩ := hd
    rw [refineWith_eq sourceY encoding h hbucket hsub,
      refineWith_eq sourceY encoding h hbucket hsub]
    rcases hcs with ⟨hr, hn⟩ | ⟨hn, hr⟩
    · rw [if_neg fun hc => hc.2 hr, if_pos ⟨hm, hn⟩]
      exact hm.2.2.symm
    · rw [if_pos ⟨hm, hn⟩, if_neg fun hc => hc.2 hr]
      exact hm.2.2
  obtain ⟨i, hi⟩ := Function.ne_iff.mp hne
  by_contra ha
  push Not at ha
  refine hi (ha i ?_)
  by_contra hmm
  exact hi ((refineWith_group_of_not_mem h hbucket hsub hmm).trans
    (refineWith_group_of_not_mem h hbucket hsub hmm).symm)

end

theorem foldl_refineWith_group_of_not_mem (hnd : signals.Nodup) {i : ι} :
    ∀ {buckets : List (ℕ × List ι)} {state : Refined ι}, Kept kind signals start state →
      (∀ bucket ∈ buckets, Bucket kind signals bucket) → (∀ bucket ∈ buckets, i ∉ bucket.2) →
      (buckets.foldl (refineWith order sourceY encoding) state).group i = state.group i
  | [], _, _, _, _ => rfl
  | bucket :: buckets, state, h, ha, hi => by
    have hbucket := ha bucket mem_cons_self
    rw [foldl_cons, foldl_refineWith_group_of_not_mem hnd
      (kept_refineWith order sourceY encoding hnd h hbucket)
      (fun b hb => ha b (mem_cons_of_mem _ hb)) fun b hb => hi b (mem_cons_of_mem _ hb)]
    exact refineWith_group_of_not_mem h.consistent hbucket.nodup hbucket.sub
      (hi bucket mem_cons_self)

/-- A signal that one deal leaves in two groups stays there: no later bucket has it. -/
theorem foldl_refineWith_iff (hnd : signals.Nodup) :
    ∀ {buckets : List (ℕ × List ι)} {state : Refined ι}, Kept kind signals start state →
      (∀ bucket ∈ buckets, Bucket kind signals bucket) →
      (buckets.Pairwise fun a b => ∀ i ∈ a.2, i ∉ b.2) →
      (SameVerdicts order order' sourceY encoding buckets state →
        buckets.foldl (refineWith order sourceY encoding) state =
          buckets.foldl (refineWith order' sourceY encoding) state) ∧
      ((∀ i ∈ signals, (buckets.foldl (refineWith order sourceY encoding) state).group i =
        (buckets.foldl (refineWith order' sourceY encoding) state).group i) →
        SameVerdicts order order' sourceY encoding buckets state)
  | [], _, _, _, _ => ⟨fun _ => rfl, fun _ => trivial⟩
  | bucket :: buckets, state, h, ha, hap => by
    obtain ⟨hlt, hap⟩ := pairwise_cons.mp hap
    have hbucket := ha bucket mem_cons_self
    have hr : ∀ b ∈ buckets, Bucket kind signals b := fun b hb => ha b (mem_cons_of_mem _ hb)
    have hst := fun order => kept_refineWith order sourceY encoding hnd h hbucket
    obtain ⟨hfr, hbc⟩ := foldl_refineWith_iff hnd (hst order) hr hap
    constructor
    · rintro ⟨hs, hv⟩
      rw [foldl_cons, foldl_cons, hfr hv,
        refineWith_congr h.consistent hbucket.nodup hbucket.sub hs]
    · intro hg
      have hs : SameVerdict order order' sourceY encoding state bucket := by
        by_contra hd
        obtain ⟨i, hi, hne⟩ :=
          refineWith_differ h.consistent hbucket.nodup hbucket.sub hd
        have hk : ∀ order, (buckets.foldl (refineWith order sourceY encoding)
              (refineWith order sourceY encoding state bucket)).group i =
            (refineWith order sourceY encoding state bucket).group i := fun order =>
          foldl_refineWith_group_of_not_mem hnd (hst order) hr fun b hb => hlt b hb i hi
        have hl := hg i (hbucket.sub i hi)
        rw [foldl_cons, foldl_cons, hk order, hk order'] at hl
        exact hne hl
      refine ⟨hs, hbc fun i hi => ?_⟩
      have hl := hg i hi
      rwa [foldl_cons, foldl_cons,
        ← refineWith_congr h.consistent hbucket.nodup hbucket.sub hs] at hl

/-! ## renamed signals -/

section renamed

variable {ι ι' : Type} [LinearOrder ι] [LinearOrder ι'] {f : ι → ι'} {y : ι → ℚ} {y' : ι' → ℚ}
  {encoding : ι → ℕ} {encoding' : ι' → ℕ}

structure Renames (f : ι → ι') (s : Refined ι) (t : Refined ι') : Prop where
  group : ∀ i, t.group (f i) = s.group i
  members : ∀ g, t.members g = (s.members g).map f
  accepted : t.accepted = s.accepted
  moved : t.moved = s.moved

def renamed (f : ι → ι') (entries : List (ι × ℕ)) : List (ι' × ℕ) :=
  entries.map fun entry => (f entry.1, entry.2)

theorem map_sortedSet (hf : StrictMono f) (l : List ι) :
    (sortedSet l).map f = sortedSet (l.map f) := by
  refine eq_of_pairwise_lt ?_ (pairwise_sortedSet _) fun i => ?_
  · rw [pairwise_map]
    exact (pairwise_sortedSet l).imp fun h => hf h
  · simp

variable {m : ℕ → List ι} {m' : ℕ → List ι'}

section

variable (hf : StrictMono f)
include hf

theorem renamed_insertMember (h : ∀ g, m' g = (m g).map f) (entry : ι × ℕ) (g : ℕ) :
    insertMember m' (f entry.1, entry.2) g = (insertMember m entry g).map f := by
  unfold insertMember
  by_cases hg : g = entry.2
  · subst hg
    simp [h, map_sortedSet hf]
  · simp [update_of_ne hg, h]

theorem renamed_eraseMember (h : ∀ g, m' g = (m g).map f) (entry : ι × ℕ) (g : ℕ) :
    eraseMember m' (f entry.1, entry.2) g = (eraseMember m entry g).map f := by
  unfold eraseMember
  by_cases hg : g = entry.2
  · subst hg
    simp [h, map_erase hf.injective]
  · simp [update_of_ne hg, h]

theorem renamed_foldl_insert : ∀ (entries : List (ι × ℕ)) {m : ℕ → List ι}
    {m' : ℕ → List ι'}, (∀ g, m' g = (m g).map f) →
    ∀ g, (renamed f entries).foldl insertMember m' g = (entries.foldl insertMember m g).map f
  | [], _, _, h => h
  | entry :: entries, _, _, h =>
    renamed_foldl_insert entries (renamed_insertMember hf h entry)

theorem renamed_foldl_erase : ∀ (entries : List (ι × ℕ)) {m : ℕ → List ι}
    {m' : ℕ → List ι'}, (∀ g, m' g = (m g).map f) →
    ∀ g, (renamed f entries).foldl eraseMember m' g = (entries.foldl eraseMember m g).map f
  | [], _, _, h => h
  | entry :: entries, _, _, h =>
    renamed_foldl_erase entries (renamed_eraseMember hf h entry)

theorem renamed_update {group : ι → ℕ} {group' : ι' → ℕ}
    (h : ∀ i, group' (f i) = group i) (entry : ι × ℕ) (i : ι) :
    update group' (f entry.1) entry.2 (f i) = update group entry.1 entry.2 i := by
  by_cases hi : i = entry.1
  · subst hi
    simp
  · have hne : f i ≠ f entry.1 := fun heq => hi (hf.injective heq)
    rw [update_of_ne hne, update_of_ne hi, h]

theorem renamed_foldl_update : ∀ (entries : List (ι × ℕ)) {group : ι → ℕ}
    {group' : ι' → ℕ}, (∀ i, group' (f i) = group i) →
    ∀ i, (renamed f entries).foldl (fun group e => update group e.1 e.2) group' (f i) =
      entries.foldl (fun group e => update group e.1 e.2) group i
  | [], _, _, h => h
  | e :: entries, _, _, h =>
    renamed_foldl_update entries (renamed_update hf h e)

end

variable {s : Refined ι} {t : Refined ι'}

theorem Renames.dealt (hf : StrictMono f) (h : Renames f s t)
    (old new : List (ι × ℕ)) : Renames f (dealt s old new)
      (dealt t (renamed f old) (renamed f new)) :=
  ⟨renamed_foldl_update hf new h.group,
    renamed_foldl_insert hf new (renamed_foldl_erase hf old h.members), h.accepted, h.moved⟩

theorem Renames.putBack (hf : StrictMono f) (h : Renames f s t)
    (entry : ι × ℕ) : Renames f (putBack s entry) (putBack t (f entry.1, entry.2)) := by
  refine ⟨renamed_update hf h.group entry, fun g => ?_, h.accepted, h.moved⟩
  refine renamed_insertMember hf (fun g => ?_) entry g
  rw [h.group]
  exact renamed_eraseMember hf h.members (entry.1, s.group entry.1) g

theorem Renames.foldl_putBack (hf : StrictMono f) : ∀ (entries : List (ι × ℕ)) {s : Refined ι}
    {t : Refined ι'}, Renames f s t →
    Renames f (entries.foldl Chimew.putBack s) ((renamed f entries).foldl Chimew.putBack t)
  | [], _, _, h => h
  | entry :: entries, _, _, h => Renames.foldl_putBack hf entries (h.putBack hf entry)

/-! ## what a deal is made of -/

omit [LinearOrder ι] [LinearOrder ι'] in
theorem renamed_objective (hy : ∀ i, y' (f i) = y i)
    (h : ∀ g, m' g = (m g).map f) (groups : List ℕ) :
    pairwiseObjective y' m' groups = pairwiseObjective y m groups := by
  unfold pairwiseObjective
  refine congrArg (List.foldl Binary64.add 0) (flatMap_congr fun g _ => ?_)
  rw [h, map_map]
  simp [Function.comp_def, hy]

omit [LinearOrder ι] [LinearOrder ι'] in
theorem renamed_anchorValues (hy : ∀ i, y' (f i) = y i)
    (hencoding : ∀ i, encoding' (f i) = encoding i) (members : List ι) (code : ℕ) :
    anchorValues y' encoding' (members.map f) code = anchorValues y encoding members code := by
  have hfl : ∀ p : ℕ → Bool, (members.map f).filter (fun i => p (encoding' i)) =
      (members.filter fun i => p (encoding i)).map f := by
    intro p
    rw [filter_map]
    simp [Function.comp_def, hencoding]
  unfold anchorValues
  dsimp only
  rw [hfl fun e => decide (e ≠ code), hfl fun e => decide (e = code)]
  simp [Function.comp_def, hy]

omit [LinearOrder ι] [LinearOrder ι'] in
theorem renamed_affectedGroups (h : ∀ i, t.group (f i) = s.group i)
    (bucket : List ι) : affectedGroups t (bucket.map f) = affectedGroups s bucket := by
  unfold affectedGroups
  simp [Function.comp_def, h]

omit [LinearOrder ι] [LinearOrder ι'] in
theorem renamed_orderedGroups (hy : ∀ i, y' (f i) = y i)
    (hencoding : ∀ i, encoding' (f i) = encoding i)
    (hg : ∀ i, t.group (f i) = s.group i) (hm : ∀ g, t.members g = (s.members g).map f)
    (bucket : List ι) (code : ℕ) :
    orderedGroups y' encoding' t (bucket.map f) code = orderedGroups y encoding s bucket code := by
  unfold orderedGroups
  rw [renamed_affectedGroups hg]
  simp only [hm, renamed_anchorValues hy hencoding]

theorem renamed_orderedSignals (hf : StrictMono f) (hy : ∀ i, y' (f i) = y i) (bucket : List ι) :
    orderedSignals y' (bucket.map f) = (orderedSignals y bucket).map f := by
  unfold orderedSignals sortedBy
  refine (map_insertionSort _ _ f bucket fun i _ j _ => ?_).symm
  have hl : ∀ {α β : Type} [LinearOrder α] [LinearOrder β] {a a' : α} {b b' : β},
      lex a b ≤ lex a' b' ↔ a < a' ∨ a = a' ∧ b ≤ b' := Prod.Lex.toLex_le_toLex
  rw [hl, hl, hy, hy, hf.le_iff_le]

theorem renamed_oldGroups (hf : StrictMono f) (hy : ∀ i, y' (f i) = y i) (h : Renames f s t)
    (bucket : ℕ × List ι) :
    oldGroups y' t (bucket.1, bucket.2.map f) = renamed f (oldGroups y s bucket) := by
  unfold oldGroups renamed
  rw [renamed_orderedSignals hf hy]
  simp [Function.comp_def, h.group]

section

variable (hf : StrictMono f) (hy : ∀ i, y' (f i) = y i)
  (hencoding : ∀ i, encoding' (f i) = encoding i)
include hf hy hencoding

theorem renamed_dealtGroups (h : Renames f s t) (bucket : List ι) (code : ℕ) :
    dealtGroups y' encoding' t (bucket.map f) code =
      renamed f (dealtGroups y encoding s bucket code) := by
  unfold dealtGroups renamed
  rw [renamed_orderedSignals hf hy, renamed_orderedGroups hy hencoding h.group h.members]
  have hc : ∀ g, ((bucket.map f).countP fun i => t.group i = g) =
      bucket.countP fun i => s.group i = g := by
    intro g
    rw [countP_map]
    simp [Function.comp_def, h.group]
  simp only [hc]
  rw [zip_map_left]
  rfl

theorem Renames.deal (h : Renames f s t) (bucket : ℕ × List ι) :
    Renames f (deal y encoding s bucket) (deal y' encoding' t (bucket.1, bucket.2.map f)) := by
  unfold Chimew.deal
  dsimp only
  rw [renamed_oldGroups hf hy h, renamed_dealtGroups hf hy hencoding h]
  exact h.dealt hf _ _

theorem Renames.refineWith (order : List ℕ → List ℕ) (h : Renames f s t) (bucket : ℕ × List ι) :
    Renames f (refineWith order y encoding s bucket)
      (refineWith order y' encoding' t (bucket.1, bucket.2.map f)) := by
  have ha := renamed_affectedGroups h.group bucket.2
  have hd := h.deal hf hy hencoding bucket
  have hg : (bucket.2.map f).map t.group = bucket.2.map s.group := by
    simp [Function.comp_def, h.group]
  have hr : Rises y' t.members (Chimew.deal y' encoding' t (bucket.1, bucket.2.map f)).members
      (order (bucket.2.map s.group)) ↔ Rises y s.members (Chimew.deal y encoding s bucket).members
        (order (bucket.2.map s.group)) := by
    unfold Rises
    rw [renamed_objective hy h.members, renamed_objective hy hd.members]
  have hm : (renamed f (oldGroups y s bucket)).countP (fun e =>
        (Chimew.deal y' encoding' t (bucket.1, bucket.2.map f)).group e.1 ≠ e.2) =
      (oldGroups y s bucket).countP fun e =>
        (Chimew.deal y encoding s bucket).group e.1 ≠ e.2 := by
    show ((oldGroups y s bucket).map _).countP _ = _
    rw [countP_map]
    simp [Function.comp_def, hd.group]
  unfold Chimew.refineWith
  dsimp only
  rw [ha, hg, length_map, renamed_oldGroups hf hy h, hm]
  simp only [hr]
  split
  · exact h
  · split
    · exact hd.foldl_putBack hf _
    · split
      · exact ⟨hd.group, hd.members, congrArg (· + 1) hd.accepted,
          congrArg (· + _) hd.moved⟩
      · exact hd

theorem Renames.foldl_refineWith (order : List ℕ → List ℕ) : ∀ (buckets : List (ℕ × List ι))
    {s : Refined ι} {t : Refined ι'}, Renames f s t →
    Renames f (buckets.foldl (Chimew.refineWith order y encoding) s)
      ((buckets.map fun bucket => (bucket.1, bucket.2.map f)).foldl
        (Chimew.refineWith order y' encoding') t)
  | [], _, _, h => h
  | bucket :: buckets, _, _, h =>
    Renames.foldl_refineWith order buckets (h.refineWith hf hy hencoding order bucket)

end

end renamed

end EmuFlow.Chimew
