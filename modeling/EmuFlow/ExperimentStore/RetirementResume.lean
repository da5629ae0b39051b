import EmuFlow.ExperimentStore.RetirementSeals

/-!
# Resuming a retirement

What `resume_legacy_run_retirement` makes of the state of a stopped application: the records of the
removed trees pass, and the others exactly when their trees still have their seal.
-/

namespace EmuFlow.ExperimentStore

open Check SortedSet List

variable {α : Type} {F : RunFormats α} {call : RetirementCall} {state state' : RetirementState α}
  {files start marked : RunTree α} {farms : List Path} {candidate : RetirementCandidate}
  {receipt : RetirementReceipt} {removed rest : List RetirementCandidate} {i : ℕ}

/-! ## the records -/

theorem find_candidate (hc : candidate ∈ call.plan.candidates) :
    call.plan.candidates.find? (fun c => c.name = candidate.name) = some candidate :=
  (Keyed.find_eq_some call.plan.names_nodup).mpr ⟨hc, rfl⟩

theorem isLink_eq_false {path : Path} (h : ∀ leaf, files.find path ≠ some (.leaf leaf)) :
    isLink files path = false := by
  unfold isLink
  cases hl : files.leafAt path with
  | none => rfl
  | some leaf => exact absurd (DirectoryTree.leafAt_eq_some.mp hl) (h leaf)

/-- What does not depend on the status of a record. -/
structure Resumable (call : RetirementCall) (files : RunTree α) (receipt : RetirementReceipt)
    (candidate : RetirementCandidate) : Prop where
  mem : candidate ∈ call.plan.candidates
  safe : isSafeName candidate.name = true ∧ isOuterName candidate.name = false
  unlinked : ∀ leaf, files.find (call.destination candidate) ≠ some (.leaf leaf)
  gone : files.find (call.source candidate) = none
  receipt : receipt.planSha256 = call.expectedSha256

section

variable (h : Resumable call files receipt candidate)
include h

theorem Resumable.path_unchanged : ¬ (call.destination candidate ≠
        quarantinePath call.plan.root receipt.planSha256 candidate.name ∨
      isLink files (call.destination candidate) = true) := by
  rw [h.receipt, isLink_eq_false h.unlinked]
  rintro (hne | hl)
  · exact hne rfl
  · cases hl

theorem Resumable.not_reappeared :
    ¬ (isOuterName candidate.name = true ∨ (files.find (call.source candidate)).isSome = true) := by
  rw [h.safe.2, h.gone]
  simp

theorem Resumable.revalidate_removed (hn : files.find (call.destination candidate) = none)
    (hl : candidate ∈ receipt.removed) :
    revalidate F files call.plan receipt (quarantineRecord call .removed candidate, i) =
      .ok none := by
  unfold revalidate quarantineRecord
  dsimp only
  rw [find_candidate h.mem]
  refine raiseIf_bind.mpr ⟨by simp [h.safe.1], raiseIf_bind.mpr ⟨h.path_unchanged,
    raiseIf_bind.mpr ⟨h.not_reappeared, ?_⟩⟩⟩
  rw [if_pos rfl]
  refine raiseIf_bind.mpr ⟨?_, rfl⟩
  rw [show quarantinePath call.plan.root call.expectedSha256 candidate.name =
    call.destination candidate from rfl, hn]
  rintro (ht | hm)
  · cases ht
  · exact hm (mem_map_of_mem hl)

theorem Resumable.revalidate_moved {pending : Option Pending} :
    revalidate F files call.plan receipt (quarantineRecord call .moved candidate, i) = .ok pending ↔
      files.find (call.destination candidate) = some .directory ∧
        ∃ ignored, ignoredPaths F files receipt (call.destination candidate) = .ok ignored ∧
          sealEntries F (withoutIgnored ignored (files.below (call.destination candidate))) =
            candidate.toSeal ∧ pending = some
            { candidate := candidate, index := i, path := call.destination candidate } := by
  unfold revalidate quarantineRecord
  dsimp only
  rw [find_candidate h.mem]
  constructor
  · intro heq
    obtain ⟨-, heq⟩ := raiseIf_bind.mp heq
    obtain ⟨-, heq⟩ := raiseIf_bind.mp heq
    obtain ⟨-, heq⟩ := raiseIf_bind.mp heq
    rw [if_neg (by decide)] at heq
    obtain ⟨ht, heq⟩ := raiseIf_bind.mp heq
    rw [not_or, Bool.not_eq_false, DirectoryTree.isDirectory_eq_true] at ht
    obtain ⟨ignored, hi, heq⟩ := bind_eq_ok.mp heq
    obtain ⟨digest, hd, heq⟩ := bind_eq_ok.mp heq
    obtain ⟨hs, heq⟩ := raiseIf_bind.mp heq
    rw [retirementArtifactDigest_of_directory ht.2] at hd
    refine ⟨ht.2, ignored, hi, ?_, (Except.ok.inj heq).symm⟩
    rw [← not_not.mp hs]
    exact Except.ok.inj hd
  · rintro ⟨ht, ignored, hi, hs, rfl⟩
    refine raiseIf_bind.mpr ⟨by simp [h.safe.1], raiseIf_bind.mpr ⟨h.path_unchanged,
      raiseIf_bind.mpr ⟨h.not_reappeared, ?_⟩⟩⟩
    rw [if_neg (by decide)]
    refine raiseIf_bind.mpr ⟨?_, bind_eq_ok.mpr ⟨ignored, hi, bind_eq_ok.mpr
      ⟨_, retirementArtifactDigest_of_directory ht, raiseIf_bind.mpr
        ⟨not_not.mpr hs, rfl⟩⟩⟩⟩
    rw [not_or, Bool.not_eq_false, DirectoryTree.isDirectory_eq_true]
    exact ⟨not_not.mpr rfl, ht⟩

end

theorem acceptResumption_eq_ok (ha : Accepted F state call farms)
    (hrc : Recorded call receipt state') (hs : receipt.status = "in-progress")
    (hsc : receipt.schema = EXPERIMENT_RETIREMENT_RECEIPT_SCHEMA)
    (hp : receipt.planSha256 = call.expectedSha256) {result : RetirementReceipt × List Pending} :
    acceptResumption F state' (F.receiptSha256 receipt) = .ok result ↔
      ∃ pending, receipt.quarantine.zipIdx.mapM (revalidate F state'.files call.plan receipt) =
        .ok pending ∧ result = (receipt, pending.filterMap id) := by
  obtain ⟨r, hr, hc, hcr⟩ := hrc
  obtain ⟨hsl, hpl⟩ := ha.plan
  unfold acceptResumption
  rw [hr]
  dsimp only
  constructor
  · intro heq
    obtain ⟨r', hr', heq⟩ := bind_eq_ok.mp heq
    cases hr'
    rw [hcr, hc] at heq
    dsimp only at heq
    obtain ⟨receipt', hrp', heq⟩ := bind_eq_ok.mp heq
    cases hrp'
    simp only [raiseIf_bind] at heq
    obtain ⟨-, -, heq⟩ := heq
    obtain ⟨plan, hp', heq⟩ := bind_eq_ok.mp heq
    cases hp'
    simp only [raiseIf_bind] at heq
    obtain ⟨-, -, heq⟩ := heq
    obtain ⟨pending, hpn, heq⟩ := bind_eq_ok.mp heq
    exact ⟨pending, hpn, (Except.ok.inj heq).symm⟩
  · rintro ⟨pending, hpn, rfl⟩
    refine bind_eq_ok.mpr ⟨r, rfl, ?_⟩
    rw [hcr, hc]
    refine bind_eq_ok.mpr ⟨receipt, rfl, raiseIf_bind.mpr ⟨?_, raiseIf_bind.mpr ⟨?_,
      bind_eq_ok.mpr ⟨call.plan, rfl, raiseIf_bind.mpr ⟨?_, raiseIf_bind.mpr ⟨?_,
        bind_eq_ok.mpr ⟨pending, hpn, rfl⟩⟩⟩⟩⟩⟩⟩
    · rw [F.length_receiptSha256]
      simp
    · rw [hsc, hs]
      simp
    · rw [hsl, hp]
      simp
    · rw [hpl.1, hpl.2]
      simp

/-! ## what is pending -/

/-- The trees that are still to be removed, when the given number is gone. -/
def pendingTrees (call : RetirementCall) (n : ℕ) (rest : List RetirementCandidate) :
    List Pending :=
  (rest.zipIdx n).map fun item =>
    { candidate := item.1, index := item.2, path := call.destination item.1 }

/-- The state of an application whose last removal is recorded. -/
structure Stopped (F : RunFormats α) (call : RetirementCall) (start : RunTree α)
    (removed rest : List RetirementCandidate) (state : RetirementState α) : Prop where
  candidates : call.plan.candidates = removed ++ rest
  names : ∀ c ∈ call.plan.candidates, isSafeName c.name = true ∧ isOuterName c.name = false
  gone : ∀ c ∈ removed, state.files.find (call.destination c) = none ∧
    state.files.find (call.source c) = none
  there : ∀ c ∈ rest, state.files.find (call.destination c) = some .directory ∧
    state.files.find (call.source c) = none ∧ ∃ marks, Quarantined F call start state.files c marks
  recorded : Recorded call (removingReceipt call removed.length) state

theorem stopped_of_run (ha : Accepted F state call farms)
    (hcn : call.plan.candidates = removed ++ rest)
    (h : runActions F call state (doneRemovals call farms removed) = .ok state') :
    Stopped F call state.files removed rest state' := by
  obtain ⟨marked, hmr, -, hr, hrc⟩ := removing_of_run ha hcn h
  refine ⟨hcn, fun c hc => (ha.candidate c hc).2.2.2, hr.removed,
    fun c hc => ?_, hrc⟩
  have hm : c ∈ call.plan.candidates := hcn ▸ mem_append_right removed hc
  obtain ⟨hb, ht, hg⟩ := hr.rest c hc
  obtain ⟨marks, hmk, hma⟩ := below_marked ha hmr hm
  obtain ⟨-, hrs, hd, -⟩ := ha.candidate c hm
  refine ⟨ht, hg, marks, hb.trans hmk, hma, fun hf => ?_, hrs, hd⟩
  have hn := hmr.unmarked (call.source c ++ []) (by
    rw [ha.farms]
    exact mem_flatMap.mpr ⟨c, hm, mem_map_of_mem hf⟩)
  rwa [append_nil] at hn

section

variable (h : Stopped F call start removed rest state)
include h

theorem Stopped.quarantine : (removingReceipt call removed.length).quarantine =
      removed.map (quarantineRecord call .removed) ++ rest.map (quarantineRecord call .moved) := by
  unfold removingReceipt
  rw [h.candidates, take_left, drop_left]

/-- What a stopped retirement leaves of a candidate can be taken up again. -/
theorem Stopped.resumable (hc : candidate ∈ removed ++ rest) :
    Resumable call state.files (removingReceipt call removed.length) candidate := by
  have hm : candidate ∈ call.plan.candidates := h.candidates ▸ hc
  refine ⟨hm, h.names candidate hm, ?_, ?_, rfl⟩
  · rcases List.mem_append.mp hc with hc | hc
    · rw [(h.gone candidate hc).1]
      simp
    · rw [(h.there candidate hc).1]
      simp
  · rcases List.mem_append.mp hc with hc | hc
    · exact (h.gone candidate hc).2
    · exact (h.there candidate hc).2.1

theorem Stopped.revalidate_all (htp : ∀ c ∈ rest, TopMarked F call start state.files c) :
    (removingReceipt call removed.length).quarantine.zipIdx.mapM
        (revalidate F state.files call.plan (removingReceipt call removed.length)) =
      .ok (removed.map (fun _ => none) ++ (pendingTrees call removed.length rest).map some) := by
  rw [h.quarantine, zipIdx_append, zipIdx_map, zipIdx_map, mapM_append, length_map, Nat.zero_add]
  refine bind_eq_ok.mpr ⟨removed.zipIdx.map fun _ => none, ?_, bind_eq_ok.mpr
    ⟨(pendingTrees call removed.length rest).map some, ?_, ?_⟩⟩
  · rw [mapM_map]
    refine mapM_eq_ok_map fun item hi => ?_
    obtain ⟨c, i⟩ := item
    have hm : c ∈ removed := fst_mem_of_mem_zipIdx hi
    refine (h.resumable (mem_append_left rest hm)).revalidate_removed (h.gone c hm).1 ?_
    show c ∈ call.plan.candidates.take removed.length
    rw [h.candidates, take_left]
    exact hm
  · unfold pendingTrees
    rw [mapM_map, map_map]
    refine mapM_eq_ok_map fun item hi => ?_
    obtain ⟨c, i⟩ := item
    have hm : c ∈ rest := fst_mem_of_mem_zipIdx hi
    obtain ⟨ht, -, marks, hq⟩ := h.there c hm
    obtain ⟨ignored, hig, hs⟩ := hq.sealed_eq (htp c hm)
      (show (removingReceipt call removed.length).planSha256 = _ from rfl)
    refine (h.resumable (mem_append_right removed hm)).revalidate_moved.mpr
      ⟨ht, ignored, hig, ?_, rfl⟩
    rw [hs, hq.digest]
  · rw [map_const', map_const', length_zipIdx]
    rfl

theorem Stopped.topMarked
    (hcl : ∀ l l', F.canonicalSha256 l = F.canonicalSha256 l' → l.length = l'.length)
    {pending : List (Option Pending)}
    (hp : (removingReceipt call removed.length).quarantine.zipIdx.mapM
      (revalidate F state.files call.plan (removingReceipt call removed.length)) = .ok pending) :
    ∀ c ∈ rest, TopMarked F call start state.files c := by
  intro c hc
  have hm : quarantineRecord call .moved c ∈
      (removingReceipt call removed.length).quarantine := by
    rw [h.quarantine]
    exact mem_append_right _ (mem_map_of_mem hc)
  obtain ⟨i, hi⟩ := mem_iff_getElem?.mp hm
  obtain ⟨b, -, hb⟩ := mem_mapM_of_mem hp ((List.mem_zipIdx_iff_getElem? (x := (_, i))).mpr hi)
  obtain ⟨-, ignored, hig, hs, -⟩ :=
    (h.resumable (mem_append_right removed hc)).revalidate_moved.mp hb
  obtain ⟨-, -, marks, hq⟩ := h.there c hc
  exact hq.topMarked hcl hig hs

end

theorem modify_append_length {β : Type} {f : β → β} {b : β} {m : List β} :
    ∀ {l : List β}, (l ++ b :: m).modify l.length f = l ++ f b :: m
  | [] => rfl
  | a :: l => by
    show a :: (l ++ b :: m).modify l.length f = _
    rw [modify_append_length]
    rfl

theorem recordRemoval_eq (hc : call.plan.candidates = removed ++ candidate :: rest) :
    recordRemoval (removingReceipt call removed.length)
        { candidate := candidate, index := removed.length, path := call.destination candidate } =
      removingReceipt call (removed.length + 1) := by
  have ht : (removed ++ candidate :: rest).take (removed.length + 1) =
      removed ++ [candidate] := by
    rw [← singleton_append, ← append_assoc, ← length_singleton (a := candidate),
      ← length_append, take_left]
  have hd : (removed ++ candidate :: rest).drop (removed.length + 1) = rest := by
    rw [← singleton_append, ← append_assoc, ← length_singleton (a := candidate),
      ← length_append, drop_left]
  unfold recordRemoval removingReceipt
  dsimp only
  rw [hc, ht, hd, take_left, drop_left, map_cons]
  have hm := @modify_append_length _ (fun r => { r with status := .removed })
    (quarantineRecord call .moved candidate) (rest.map (quarantineRecord call .moved))
    (removed.map (quarantineRecord call .removed))
  rw [length_map] at hm
  rw [hm, map_append, map_append, sum_append, append_assoc]
  simp [quarantineRecord]

theorem foldlM_removePending : ∀ {rest removed : List RetirementCandidate} {files : RunTree α},
    call.plan.candidates = removed ++ rest → (∀ c ∈ rest, files.find (call.destination c) ≠ none) →
      ∃ files', (pendingTrees call removed.length rest).foldlM removePending
          (removingReceipt call removed.length, files) =
            .ok (removingReceipt call call.plan.candidates.length, files') ∧
        ∀ path, files'.find path =
          if ∃ c ∈ rest, call.destination c <+: path then none else files.find path
  | [], removed, files, hcn, _ => by
    rw [append_nil] at hcn
    rw [hcn]
    exact ⟨files, rfl, fun path => by simp⟩
  | candidate :: rest, removed, files, hcn, ht => by
    obtain ⟨hcd, hrs⟩ := forall_mem_cons.mp ht
    have hm : ∀ c ∈ candidate :: rest, c ∈ call.plan.candidates := by
      intro c hc
      rw [hcn]
      exact mem_append_right removed hc
    have hnd : (candidate :: rest).Nodup := by
      have ha := @nodup_candidates call
      rw [hcn] at ha
      exact (nodup_append.mp ha).2.1
    have hk : ∀ c ∈ rest,
        (files.removeTree (call.destination candidate)).find (call.destination c) ≠ none := by
      intro c hc
      have hne : candidate ≠ c := by
        rintro rfl
        exact (nodup_cons.mp hnd).1 hc
      have hap := apart_destinations (hm candidate mem_cons_self)
        (hm c (mem_cons_of_mem candidate hc)) hne
      rw [DirectoryTree.find_removeTree_outside hap.1]
      exact hrs c hc
    obtain ⟨files', hr, hf⟩ := @foldlM_removePending rest (removed ++ [candidate])
      (files.removeTree (call.destination candidate)) (by simpa using hcn) hk
    refine ⟨files', ?_, fun path => ?_⟩
    · rw [length_append, length_singleton] at hr
      unfold pendingTrees
      rw [zipIdx_cons, map_cons, foldlM_cons]
      refine bind_eq_ok.mpr ⟨_, raiseIf_bind.mpr ⟨?_, rfl⟩, ?_⟩
      · rw [Option.isNone_iff_eq_none]
        exact hcd
      · dsimp only
        rw [recordRemoval_eq hcn]
        exact hr
    · rw [hf]
      by_cases hp : call.destination candidate <+: path
      · have hrt : path ≠ [] := by
          rintro rfl
          exact absurd (prefix_nil.mp hp) (by simp [RetirementCall.destination, quarantinePath])
        rw [DirectoryTree.find_removeTree _ hrt, if_pos hp, ite_self, if_pos]
        exact ⟨candidate, mem_cons_self, hp⟩
      · rw [DirectoryTree.find_removeTree_outside hp]
        simp [hp]

end EmuFlow.ExperimentStore
