import EmuFlow.ExperimentStore.RetirementResume

/-!
# Crash safety of a retirement

Every file stays, is moved with its tree, is sealed in the plan, or is a marker of the retirement
itself. A stopped application can be resumed exactly when its last removal is recorded and each tree
that is left is marked at its top alone, since a resumption leaves no other marker out of the seal.
-/

namespace EmuFlow.ExperimentStore

open Check SortedSet List DirectoryTree
open DirectoryTree (Apart)

variable {α : Type} {F : RunFormats α} {call : RetirementCall} {state state' : RetirementState α}
  {files start marked : RunTree α} {farms : List Path} {candidate : RetirementCandidate}
  {receipt : RetirementReceipt} {removed rest : List RetirementCandidate}
  {done : List RetirementAction} {action : RetirementAction}

def SealedIn (F : RunFormats α) (candidate : RetirementCandidate)
    (e : Path × FileEntry (RunFile α)) : Prop :=
  ∃ entries : RunEntries α, sealEntries F entries = candidate.toSeal ∧ e ∈ entries

def Kept (action : RetirementAction) (files : RunTree α) (path : Path) (leaf : RunFile α) : Prop :=
  files.find path = some (.leaf leaf) ∨ ∃ source destination below,
    action = .rename source destination ∧ path = source ++ below ∧
      files.find (destination ++ below) = some (.leaf leaf)

/-- Each operation of an application deletes nothing but what is sealed and its own markers. -/
def ApplySafe (F : RunFormats α) (call : RetirementCall) (start : RetirementState α)
    (farms : List Path) : Prop :=
  ∀ done action state state', done ++ [action] <+: retirementScript call farms →
    runActions F call start done = .ok state → runAction F call state action = .ok state' →
      ∀ path leaf, state.files.find path = some (.leaf leaf) →
        Kept action state'.files path leaf ∨ ∃ c ∈ call.plan.candidates, ∃ below,
          path = call.destination c ++ below ∧ (SealedIn F c (below, .leaf leaf) ∨
            ∃ farm, (below, .leaf leaf) = markEntry F call farm)

def ReadsAsMarker (F : RunFormats α) (files : RunTree α) (receipt : RetirementReceipt)
    (path : Path) : Prop :=
  ∃ content marker, fileAt F files path = some content ∧ F.readMarker content = .ok marker ∧
    marker.schema = FARM_RETIREMENT_MARKER_SCHEMA ∧ marker.status = "retirement-pending" ∧
      marker.planSha256 = receipt.planSha256

/-- A resumption of whatever is there, up to any of its removals, deletes nothing but what is sealed
and the marker at the top of a tree. -/
def ResumeSafe (F : RunFormats α) : Prop :=
  ∀ (state : RetirementState α) expected receipt pending done current files,
    acceptResumption F state expected = .ok (receipt, pending) → done <+: pending →
    done.foldlM removePending (receipt, state.files) = .ok (current, files) →
      ∀ path leaf, state.files.find path = some (.leaf leaf) →
        files.find path = some (.leaf leaf) ∨ ∃ r plan, state.receiptRoot = some r ∧
          r.plan = some plan ∧ ∃ c ∈ plan.candidates, ∃ below,
            path = quarantinePath plan.root receipt.planSha256 c.name ++ below ∧
              (SealedIn F c (below, .leaf leaf) ∨
                below = [FARM_RETIREMENT_MARKER] ∧ ReadsAsMarker F state.files receipt path)

/-! ## the operations of an application -/

theorem concat_prefix_append {β : Type} {l m front : List β} {b : β}
    (h : front ++ [b] <+: l ++ m) :
    front ++ [b] <+: l ∨ ∃ later, front = l ++ later ∧ later ++ [b] <+: m := by
  rcases prefix_or_prefix_of_prefix h (prefix_append l m) with hp | hp
  · exact .inl hp
  · rcases prefix_concat_iff.mp hp with heq | hp'
    · exact .inl (heq ▸ prefix_refl _)
    · obtain ⟨later, rfl⟩ := hp'
      rw [append_assoc, prefix_append_right_inj] at h
      exact .inr ⟨later, rfl, h⟩

theorem removals_ne_concat {front : List RetirementAction} {path : Path} :
    removed.zipIdx.flatMap (removeActions call) ≠ front ++ [.removeTree path] := by
  intro heq
  rcases eq_nil_or_concat removed with rfl | ⟨removed', c, rfl⟩
  · exact absurd heq.symm (by simp)
  · rw [concat_eq_append, zipIdx_append, flatMap_append] at heq
    have hl := congrArg getLast? heq
    simp [removeActions] at hl

theorem removal_of_prefix {path : Path}
    (h : done ++ [.removeTree path] <+: retirementScript call farms) :
    ∃ removed c rest, call.plan.candidates = removed ++ c :: rest ∧
      done = doneRemovals call farms removed ∧ path = call.destination c := by
  unfold retirementScript at h
  rcases concat_prefix_append h with hb | ⟨later, rfl, hl⟩
  · rcases concat_prefix_append hb with hm | ⟨later, rfl, hr⟩
    · have hmm := hm.subset (mem_append_right done (mem_singleton_self _))
      simp [preparation, moves, moveActions] at hmm
    · obtain ⟨removed, rest, hc, hd⟩ := prefix_removals hr
      rcases hd with heq | ⟨c, rest', rfl, heq⟩
      · exact absurd heq.symm removals_ne_concat
      · obtain ⟨rfl, hp⟩ := append_inj' heq rfl
        refine ⟨removed, c, rest', hc, rfl, ?_⟩
        simpa using hp
  · have hmm := hl.subset (mem_append_right later (mem_singleton_self _))
    simp at hmm

theorem mark_of_prefix {farm : Path}
    (h : done ++ [.writeMarker farm] <+: retirementScript call farms) :
    ∃ marks rest, farms = marks ++ farm :: rest ∧
      done = checks call farms ++ marks.map .writeMarker := by
  have hl : ∀ later m, later ++ [.writeMarker farm] <+: m →
      RetirementAction.writeMarker farm ∈ m := by
    intro later m hp
    exact hp.subset (mem_append_right later (mem_singleton_self _))
  unfold retirementScript at h
  rw [preparation_eq] at h
  simp only [append_assoc] at h
  rcases concat_prefix_append h with hc | ⟨later, rfl, hm⟩
  · have hmm := hl _ _ hc
    simp [checks] at hmm
  · rcases concat_prefix_append hm with hf | ⟨later', rfl, hmv⟩
    · obtain ⟨tail, ht⟩ := hf
      rw [append_assoc, singleton_append] at ht
      obtain ⟨marks, rest, rfl, rfl, hr⟩ := map_eq_append_iff.mp ht.symm
      obtain ⟨other, rest', rfl, heq, -⟩ := map_eq_cons_iff.mp hr
      obtain rfl := RetirementAction.writeMarker.inj heq
      exact ⟨marks, rest', rfl, rfl⟩
    · have hmm := hl _ _ hmv
      simp [moves, moveActions, removals, removeActions] at hmm

theorem find_marker_eq_none (ha : Accepted F state call farms) {farm : Path}
    (hd : done ++ [.writeMarker farm] <+: retirementScript call farms)
    (hr : runActions F call state done = .ok state') :
    state'.files.find (farm ++ [FARM_RETIREMENT_MARKER]) = none := by
  obtain ⟨marks, rest, hf, rfl⟩ := mark_of_prefix hd
  obtain ⟨checked, hc, hm⟩ := runActions_append.mp hr
  obtain ⟨hfl, -, -, hn⟩ := run_checks ha hc
  have hnd : (marks ++ farm :: rest).Nodup := hf ▸ ha.nodup_farms
  obtain ⟨he, -⟩ := run_marks hm (nodup_append.mp hnd).1 (fun other ho => by
    rw [hfl]
    exact hn other (by simp [hf, ho]))
  rw [Option.eq_none_iff_forall_ne_some]
  intro e hfn
  rw [find_eq_some (by simp), he, List.mem_append, hfl] at hfn
  rcases hfn with hmk | hs
  · obtain ⟨other, ho, heq⟩ := mem_map.mp (mem_reverse.mp hmk)
    have hp : other = farm := append_cancel_right (congrArg Prod.fst heq)
    rw [hp] at ho
    exact (disjoint_of_nodup_append hnd) ho mem_cons_self
  · rw [← find_eq_some (by simp), hn farm (by simp [hf])] at hs
    cases hs

theorem Quarantined.sealed_or_mark {marks : RunEntries α}
    (h : Quarantined F call start files candidate marks) {e : Path × FileEntry (RunFile α)}
    (he : e ∈ files.below (call.destination candidate)) :
    SealedIn F candidate e ∨ ∃ farm, e = markEntry F call farm := by
  rw [h.below, List.mem_append] at he
  rcases he with hm | hs
  · obtain ⟨farm, -, rfl⟩ := (h.marks e).mp hm
    exact .inr ⟨farm, rfl⟩
  · exact .inl ⟨_, h.digest, hs⟩

theorem kept_of_rename {source destination : Path} {renamed : RunTree α}
    (h : files.rename source destination = some renamed) {path : Path} {leaf : RunFile α}
    (hl : files.find path = some (.leaf leaf)) :
    Kept (.rename source destination) renamed path leaf := by
  obtain ⟨hr, -, hd, -⟩ := rename_spec h
  have hp : path ≠ [] := by
    rintro rfl
    cases hl
  have hm := (find_eq_some hp).mp hl
  by_cases hpr : source <+: path
  · obtain ⟨below, rfl⟩ := hpr
    refine .inr ⟨source, destination, below, rfl, rfl, ?_⟩
    rw [find_eq_some, entries_rename h]
    · exact mem_map.mpr ⟨_, hm, by rw [movedPath_append]⟩
    · intro hn
      rw [(append_eq_nil_iff.mp hn).1] at hd
      cases hd
  · refine .inl ?_
    rw [find_eq_some hp, entries_rename h]
    exact mem_map.mpr ⟨_, hm, by rw [movedPath_outside hpr]⟩

theorem applySafe_of_accepted (hac : Accepted F state call farms) :
    ApplySafe F call state farms := by
  intro done action current next hd hrn ha path leaf hl
  cases action with
  | makeReceiptRoot =>
    cases ha
    exact .inl (.inl hl)
  | copyPlan =>
    obtain ⟨r, -, rfl⟩ := onReceiptRoot_eq_ok.mp ha
    exact .inl (.inl hl)
  | copyTombstone name marker =>
    obtain ⟨content, -, ha⟩ := bind_eq_ok.mp ha
    obtain ⟨r, -, rfl⟩ := onReceiptRoot_eq_ok.mp ha
    exact .inl (.inl hl)
  | writeReceipt receipt =>
    obtain ⟨r, -, rfl⟩ := onReceiptRoot_eq_ok.mp ha
    exact .inl (.inl hl)
  | checkQuarantine destinations =>
    obtain ⟨-, ha⟩ := raiseIf_bind.mp ha
    cases ha
    exact .inl (.inl hl)
  | checkUnmarked farms =>
    obtain ⟨-, ha⟩ := raiseIf_bind.mp ha
    cases ha
    exact .inl (.inl hl)
  | writeMarker farm =>
    -- the marker replaces nothing
    obtain ⟨written, hw, ha⟩ := bind_eq_ok.mp ha
    rw [osError_eq_ok] at hw
    cases ha
    refine .inl (.inl ?_)
    show written.find path = _
    rw [find_writeLeaf hw, if_neg, hl]
    rintro rfl
    rw [find_marker_eq_none hac hd hrn] at hl
    cases hl
  | rename source destination =>
    obtain ⟨renamed, hr, ha⟩ := bind_eq_ok.mp ha
    rw [osError_eq_ok] at hr
    cases ha
    exact .inl (kept_of_rename hr hl)
  | removeTree root =>
    obtain ⟨removed, c, rest, hc, rfl, rfl⟩ := removal_of_prefix hd
    cases ha
    have hs := stopped_of_run hac hc hrn
    obtain ⟨ht, -, marks, hq⟩ := hs.there c mem_cons_self
    by_cases hp : call.destination c <+: path
    · obtain ⟨below, rfl⟩ := hp
      refine .inr ⟨c, by simp [hc], below, rfl, hq.sealed_or_mark ?_⟩
      refine mem_below.mpr ⟨?_, hl⟩
      rintro rfl
      rw [append_nil, ht] at hl
      cases hl
    · refine .inl (.inl ?_)
      show (current.files.removeTree _).find path = _
      rw [find_removeTree_outside hp, hl]

theorem revalidate_eq_some {plan : RetirementPlan} {item : QuarantineRecord × ℕ}
    {pending : Pending} (h : revalidate F files plan receipt item = .ok (some pending)) :
    pending.candidate ∈ plan.candidates ∧
      pending.path = quarantinePath plan.root receipt.planSha256 pending.candidate.name ∧
        files.find pending.path = some .directory ∧
          ∃ ignored, ignoredPaths F files receipt pending.path = .ok ignored ∧
            sealEntries F (withoutIgnored ignored (files.below pending.path)) =
              pending.candidate.toSeal := by
  unfold revalidate at h
  dsimp only at h
  split at h
  · next found hf =>
    obtain ⟨_, hc, h⟩ := bind_eq_ok.mp h
    cases hc
    simp only [raiseIf_bind] at h
    obtain ⟨-, hp, -, h⟩ := h
    have hn : found.name = item.1.name :=
      Keyed.key_of_find (show Keyed.find RetirementCandidate.name plan.candidates _ = _ from hf)
    split at h
    · obtain ⟨-, h⟩ := raiseIf_bind.mp h
      cases Except.ok.inj h
    · obtain ⟨ht, h⟩ := raiseIf_bind.mp h
      obtain ⟨ignored, hi, h⟩ := bind_eq_ok.mp h
      obtain ⟨digest, hd, h⟩ := bind_eq_ok.mp h
      obtain ⟨hs, h⟩ := raiseIf_bind.mp h
      cases h
      rw [not_or, Bool.not_eq_false, DirectoryTree.isDirectory_eq_true] at ht
      rw [not_or, not_not] at hp
      rw [retirementArtifactDigest_of_directory ht.2] at hd
      refine ⟨List.mem_of_find?_eq_some hf, ?_, ht.2, ignored, hi, ?_⟩
      · rw [hp.1, hn]
      · rw [← not_not.mp hs]
        exact Except.ok.inj hd
  · cases h

theorem acceptResumption_spec {expected : String} {pending : List Pending}
    (h : acceptResumption F state expected = .ok (receipt, pending)) :
    ∃ r plan, state.receiptRoot = some r ∧ r.plan = some plan ∧
      ∀ p ∈ pending, ∃ item, revalidate F state.files plan receipt item = .ok (some p) := by
  unfold acceptResumption at h
  dsimp only at h
  cases hr : state.receiptRoot with
  | none =>
    rw [hr] at h
    cases h
  | some r =>
    rw [hr] at h
    obtain ⟨_, hr', h⟩ := bind_eq_ok.mp h
    cases hr'
    cases hc : r.receipt with
    | none =>
      rw [hc] at h
      cases h
    | some current =>
      rw [hc] at h
      obtain ⟨_, hc', h⟩ := bind_eq_ok.mp h
      cases hc'
      simp only [raiseIf_bind] at h
      obtain ⟨-, -, h⟩ := h
      cases hpl : r.plan with
      | none =>
        rw [hpl] at h
        cases h
      | some plan =>
        rw [hpl] at h
        obtain ⟨_, hpl', h⟩ := bind_eq_ok.mp h
        cases hpl'
        simp only [raiseIf_bind] at h
        obtain ⟨-, -, h⟩ := h
        obtain ⟨all, ha, h⟩ := bind_eq_ok.mp h
        cases h
        refine ⟨r, plan, rfl, hpl, fun p hp => ?_⟩
        obtain ⟨o, ho, rfl⟩ := mem_filterMap.mp hp
        obtain ⟨item, -, hi⟩ := exists_of_mem_mapM ha ho
        exact ⟨item, hi⟩

theorem find_foldlM_removePending {path : Path} : ∀ {done : List Pending}
    {current current' : RetirementReceipt × RunTree α},
    done.foldlM removePending current = .ok current' → (∀ p ∈ done, ¬ p.path <+: path) →
      current'.2.find path = current.2.find path
  | [], current, current', h, _ => by
    cases h
    rfl
  | p :: done, current, current', h, ho => by
    obtain ⟨hp, ho⟩ := forall_mem_cons.mp ho
    rw [foldlM_cons] at h
    obtain ⟨next, hn, h⟩ := bind_eq_ok.mp h
    obtain ⟨-, hn⟩ := raiseIf_bind.mp hn
    cases hn
    rw [find_foldlM_removePending h ho]
    exact find_removeTree_outside hp

theorem resumeSafe : ResumeSafe F := by
  intro state expected receipt pending done current files ha hd hrn path leaf hl
  obtain ⟨r, plan, hr, hpl, hpn⟩ := acceptResumption_spec ha
  by_cases ho : ∀ p ∈ done, ¬ p.path <+: path
  · rw [find_foldlM_removePending hrn ho]
    exact .inl hl
  · push Not at ho
    obtain ⟨p, hp, below, rfl⟩ := ho
    obtain ⟨item, hi⟩ := hpn p (hd.subset hp)
    obtain ⟨hm, hpt, hth, ignored, hig, hs⟩ := revalidate_eq_some hi
    refine .inr ⟨r, plan, hr, hpl, p.candidate, hm, below, by rw [hpt], ?_⟩
    have hb : (below, .leaf leaf) ∈ state.files.below p.path := by
      refine mem_below.mpr ⟨?_, hl⟩
      rintro rfl
      rw [append_nil, hth] at hl
      cases hl
    by_cases ho : ∃ path ∈ ignored, path <+: below
    · obtain ⟨top, ht, hpr⟩ := ho
      rcases ignoredPaths_eq_ok hig with ⟨-, rfl⟩ | ⟨content, hf, rfl, marker, hmr⟩
      · cases ht
      · obtain rfl := mem_singleton.mp ht
        obtain ⟨other, hot⟩ := leaf_of_fileAt hf
        obtain rfl := eq_of_below (by rw [hot]; simp) (by rw [hl]; simp) hpr
        exact .inr ⟨rfl, content, marker, hf, hmr⟩
    · exact .inl ⟨_, hs, mem_withoutIgnored.mpr ⟨hb, ho⟩⟩

/-! ## the points at which an application can be resumed -/

def AllMoved (call : RetirementCall) (farms : List Path) (done : List RetirementAction) : Prop :=
  preparation call farms ++ moves call <+: done ∧ done ≠ retirementScript call farms

/-- The resumption from the current receipt removes the trees that are left, and no others, and ends
with every candidate in the receipt. -/
def ResumeCompletes (F : RunFormats α) (call : RetirementCall) (state : RetirementState α) : Prop :=
  ∃ r current receipt resumed, state.receiptRoot = some r ∧ r.receipt = some current ∧
    resumeLegacyRunRetirement F state (F.receiptSha256 current) = .ok (receipt, resumed) ∧
      receipt.status = "pass" ∧ receipt.removed.Perm call.plan.candidates ∧
        ∀ path, resumed.files.find path =
          if ∃ c ∈ call.plan.candidates, call.destination c <+: path then none
          else state.files.find path

/-- The last removal is recorded, and each tree that is left is marked at its top alone. -/
def ResumableAt (F : RunFormats α) (call : RetirementCall) (farms : List Path)
    (start : RunTree α) (done : List RetirementAction) (files : RunTree α) : Prop :=
  ∃ removed rest, call.plan.candidates = removed ++ rest ∧
    done = doneRemovals call farms removed ∧ ∀ c ∈ rest, TopMarked F call start files c

theorem resume_eq_ok {expected : String} {result : RetirementReceipt × RetirementState α} :
    resumeLegacyRunRetirement F state expected = .ok result ↔
      ∃ receipt pending removed files, acceptResumption F state expected = .ok (receipt, pending) ∧
        pending.foldlM removePending (receipt, state.files) = .ok (removed, files) ∧
          result = ({ removed with status := "pass" }, {
            files := files
            receiptRoot := state.receiptRoot.map fun r =>
              { r with receipt := some { removed with status := "pass" } } }) := by
  unfold resumeLegacyRunRetirement
  constructor
  · intro h
    simp only [bind_eq_ok] at h
    obtain ⟨⟨receipt, pending⟩, ha, ⟨removed, files⟩, hr, h⟩ := h
    exact ⟨receipt, pending, removed, files, ha, hr, (Except.ok.inj h).symm⟩
  · rintro ⟨receipt, pending, removed, files, ha, hr, rfl⟩
    exact bind_eq_ok.mpr ⟨_, ha, bind_eq_ok.mpr ⟨_, hr, rfl⟩⟩

theorem find_eq_none_of_prefix {path pre : Path} (hn : files.find pre = none)
    (hp : pre <+: path) : files.find path = none := by
  by_contra ht
  by_cases heq : pre = path
  · exact ht (heq ▸ hn)
  · rw [ isDirectory_of_prefix ht hp heq] at hn
    cases hn

theorem Stopped.resumeCompletes (hap : Accepted F state call farms)
    (h : Stopped F call start removed rest state')
    (ht : ∀ c ∈ rest, TopMarked F call start state'.files c) :
    ResumeCompletes F call state' := by
  obtain ⟨r, hr, hpl, hcr⟩ := h.recorded
  have hpn : (removed.map (fun _ => none) ++
      (pendingTrees call removed.length rest).map some).filterMap id =
        pendingTrees call removed.length rest := by
    rw [filterMap_append, filterMap_map, filterMap_map]
    simp
  have hac := (acceptResumption_eq_ok hap h.recorded rfl rfl rfl).mpr
    ⟨_, h.revalidate_all ht, rfl⟩
  rw [hpn] at hac
  have hth : ∀ c ∈ rest, state'.files.find (call.destination c) ≠ none := by
    intro c hc
    rw [(h.there c hc).1]
    simp
  obtain ⟨files, hrn, hf⟩ := foldlM_removePending h.candidates hth
  refine ⟨r, _, _, _, hr, hcr, resume_eq_ok.mpr ⟨_, _, _, files, hac, hrn, rfl⟩, rfl,
    ?_, fun path => ?_⟩
  · show (call.plan.candidates.take call.plan.candidates.length).Perm _
    rw [take_length]
  · show files.find path = _
    rw [hf, h.candidates]
    by_cases hrs : ∃ c ∈ rest, call.destination c <+: path
    · obtain ⟨c, hc, hp⟩ := hrs
      rw [if_pos ⟨c, hc, hp⟩, if_pos ⟨c, mem_append_right removed hc, hp⟩]
    · rw [if_neg hrs]
      split_ifs with ha
      · -- what is below a removed tree is gone already
        obtain ⟨c, hc, hp⟩ := ha
        have hrm := (List.mem_append.mp hc).resolve_right fun hc' => hrs ⟨c, hc', hp⟩
        exact find_eq_none_of_prefix (h.gone c hrm).1 hp
      · rfl

theorem not_resumed_of_unrecorded (ha : Accepted F state call farms)
    (hcn : call.plan.candidates = removed ++ candidate :: rest)
    (hrn : runActions F call state
      (doneRemovals call farms removed ++ [.removeTree
        (call.destination candidate)]) = .ok state') :
    ¬ ResumeCompletes F call state' := by
  rintro ⟨r, current, _, _, hr, hc, hrm, -⟩
  obtain ⟨stopped, hs, hl⟩ := runActions_append.mp hrn
  obtain ⟨gone, hg, hl⟩ := runActions_cons.mp hl
  obtain rfl := runActions_nil.mp hl
  cases hg
  have h := stopped_of_run ha hcn hs
  have hrc : Recorded call (removingReceipt call removed.length)
      { stopped with files := stopped.files.removeTree (call.destination candidate) } := h.recorded
  obtain ⟨r', hr', -, hc'⟩ := h.recorded
  obtain rfl : r' = r := Option.some.inj (hr'.symm.trans hr)
  obtain rfl := Option.some.inj (hc'.symm.trans hc)
  obtain ⟨_, _, _, _, hap, -, -⟩ := resume_eq_ok.mp hrm
  obtain ⟨pending, hp, -⟩ :=
    (acceptResumption_eq_ok ha hrc rfl rfl rfl).mp hap
  -- its record says that it has been moved, and the tree is not there
  have hm : quarantineRecord call .moved candidate ∈
      (removingReceipt call removed.length).quarantine := by
    rw [h.quarantine]
    exact mem_append_right _ (mem_map_of_mem mem_cons_self)
  obtain ⟨i, hi⟩ := mem_iff_getElem?.mp hm
  obtain ⟨b, -, hb⟩ := mem_mapM_of_mem hp
    ((List.mem_zipIdx_iff_getElem? (x := (_, i))).mpr hi)
  have hn : (stopped.files.removeTree (call.destination candidate)).find
      (call.destination candidate) = none := by
    rw [find_removeTree _ (by simp [RetirementCall.destination, quarantinePath]),
      if_pos (prefix_refl _)]
  have hrs := h.resumable (mem_append_right removed mem_cons_self)
  have hg : (stopped.files.removeTree (call.destination candidate)).find
      (call.source candidate) = none := by
    rw [find_removeTree _ (by simp [RetirementCall.source]), hrs.gone, ite_self]
  have haf : Resumable call (stopped.files.removeTree (call.destination candidate))
      (removingReceipt call removed.length) candidate :=
    ⟨hrs.mem, hrs.safe, by rw [hn]; simp, hg, rfl⟩
  obtain ⟨ht, -⟩ := haf.revalidate_moved.mp hb
  rw [hn] at ht
  cases ht

/-- **A retirement is crash safe, and can be resumed exactly where the last removal is recorded and
no farm below the top of a tree that is left has been marked.** -/
theorem retirement_crash_safe_iff
    (hcollision : ∀ l l', F.canonicalSha256 l = F.canonicalSha256 l' → l.length = l'.length)
    (haccept : acceptRetirement F state call = .ok farms)
    (hdone : done <+: retirementScript call farms)
    (hrun : runActions F call state done = .ok state') :
    (ApplySafe F call state farms ∧ ResumeSafe F ∧
        (AllMoved call farms done → ResumeCompletes F call state')) ↔
      (AllMoved call farms done → ResumableAt F call farms state.files done state'.files) := by
  have haccepted := accepted_of_acceptRetirement haccept
  constructor
  · rintro ⟨-, -, hresume⟩ hmoved
    obtain ⟨later, rfl⟩ := hmoved.1
    have hremovals : later <+: removals call := by
      unfold retirementScript at hdone
      rcases prefix_concat_iff.mp hdone with heq | hpre
      · exact absurd heq hmoved.2
      · exact (prefix_append_right_inj _).mp hpre
    obtain ⟨removed, rest, hcandidates, hlater⟩ := prefix_removals hremovals
    rcases hlater with rfl | ⟨c, rest', rfl, rfl⟩
    · have hstopped := stopped_of_run haccepted hcandidates hrun
      refine ⟨removed, rest, hcandidates, rfl, ?_⟩
      obtain ⟨r, current, _, _, hr, hcurrent, hresumed, -⟩ := hresume hmoved
      obtain ⟨r', hr', -, hcurrent'⟩ := hstopped.recorded
      obtain rfl : r' = r := Option.some.inj (hr'.symm.trans hr)
      obtain rfl := Option.some.inj (hcurrent'.symm.trans hcurrent)
      obtain ⟨_, _, _, _, hresumption, -, -⟩ := resume_eq_ok.mp hresumed
      obtain ⟨pending, hpending, -⟩ :=
        (acceptResumption_eq_ok haccepted hstopped.recorded rfl rfl rfl).mp hresumption
      exact hstopped.topMarked hcollision hpending
    · rw [← append_assoc] at hrun
      exact absurd (hresume hmoved) (not_resumed_of_unrecorded haccepted hcandidates hrun)
  · intro h
    refine ⟨applySafe_of_accepted haccepted, resumeSafe, fun hmoved => ?_⟩
    obtain ⟨removed, rest, hcandidates, rfl, htop⟩ := h hmoved
    exact (stopped_of_run haccepted hcandidates hrun).resumeCompletes haccepted htop

/-! ## a farm below the top of its candidate -/

inductive ExampleFile where
  | text (content : String)
  | marker (marker : PendingMarker)
  deriving DecidableEq

def exampleFormats : RunFormats ExampleFile where
  size
    | .text content => content.length
    | .marker _ => 1
  sha256
    | .text content => content
    | .marker marker => marker.planSha256
  canonicalSha256 records := String.ofList (List.replicate records.length 'e')
  planSha256 _ := String.ofList (List.replicate 64 'a')
  receiptSha256 _ := String.ofList (List.replicate 64 'b')
  length_receiptSha256 _ := by decide +kernel
  pendingMarker := .marker
  size_pendingMarker _ := Nat.one_pos
  readMarker
    | .text _ => .error (.raised "JSONDecodeError" "")
    | .marker marker => .ok marker
  readMarker_pendingMarker _ := rfl
  taskState
    | .text "pass" => some (LEGACY_FARM_STATE_SCHEMA, "pass")
    | _ => none
  followFile _ _ _ := none
  leadsToDirectory _ _ _ := false

def nestedFarm : RunTree ExampleFile where
  entries := [(["runs"], .directory), (["runs", "old"], .directory),
    (["runs", "old", "farm"], .directory),
    (["runs", "old", "farm", "farm-manifest.json"], .leaf (.file (.text "manifest"))),
    (["runs", "old", "farm", "launch.lock"], .leaf (.file (.text ""))),
    (["runs", "old", "farm", "tasks"], .directory),
    (["runs", "old", "farm", "tasks", "t"], .directory),
    (["runs", "old", "farm", "tasks", "t", "state.json"], .leaf (.file (.text "pass")))]
  nodup := by decide
  below_root := by decide
  parents := by decide

def nestedCall : RetirementCall where
  plan := {
    reason := "superseded"
    root := ["runs"]
    migrationPath := "plan.json"
    migrationSha256 := "m"
    candidates := [{
      toSeal := sealEntries exampleFormats (nestedFarm.below ["runs", "old"])
      name := "old"
      markers := [] }]
    names_nodup := by decide }
  expectedSha256 := String.ofList (List.replicate 64 'a')
  receiptPath := ["receipts"]
  migrationSha256 := some "m"
  lockHeld _ := false

def nestedStop : List RetirementAction :=
  preparation nestedCall [["runs", "old", "farm"]] ++ moves nestedCall

theorem accept_nestedFarm : acceptRetirement exampleFormats
    { files := nestedFarm, receiptRoot := none }
    nestedCall = .ok [["runs", "old", "farm"]] := by
  decide +kernel

theorem run_nestedFarm : ∃ state, runActions exampleFormats nestedCall
      { files := nestedFarm, receiptRoot := none } nestedStop = .ok state ∧
    (resumeLegacyRunRetirement exampleFormats state
      (String.ofList (List.replicate 64 'b'))).isOk = false := by
  refine exists_of_returns ?_
  decide +kernel

theorem allMoved_nestedStop : AllMoved nestedCall [["runs", "old", "farm"]] nestedStop := by
  refine ⟨prefix_refl _, fun heq => ?_⟩
  have hl := congrArg List.length heq
  revert hl
  decide +kernel

/-- The seal of the resumption leaves out only a marker at the top of a candidate, and the one of
the farm is further down. -/
theorem nestedFarm_not_resumed : ∃ farms state,
    acceptRetirement exampleFormats { files := nestedFarm, receiptRoot := none } nestedCall =
        .ok farms ∧
      nestedStop <+: retirementScript nestedCall farms ∧
      runActions exampleFormats nestedCall { files := nestedFarm, receiptRoot := none } nestedStop =
        .ok state ∧
      AllMoved nestedCall farms nestedStop ∧ ¬ ResumeCompletes exampleFormats nestedCall state := by
  obtain ⟨state, hrun, hresume⟩ := run_nestedFarm
  refine ⟨_, state, accept_nestedFarm, ?_, hrun, allMoved_nestedStop, ?_⟩
  · exact (prefix_append _ _).trans (prefix_append _ _)
  · rintro ⟨_, current, _, _, -, -, hresumed, -⟩
    rw [show exampleFormats.receiptSha256 current = String.ofList (List.replicate 64 'b') from rfl]
      at hresumed
    rw [hresumed] at hresume
    cases hresume

theorem retirement_crash_safe_iff_nestedFarm : [[], nestedStop].Forall fun stop => ∃ farms state,
    (ApplySafe exampleFormats nestedCall { files := nestedFarm, receiptRoot := none } farms ∧
        ResumeSafe exampleFormats ∧
        (AllMoved nestedCall farms stop → ResumeCompletes exampleFormats nestedCall state)) ↔
      (AllMoved nestedCall farms stop →
        ResumableAt exampleFormats nestedCall farms nestedFarm stop state.files) := by
  refine List.forall_iff_forall_mem.mpr fun stop hstop => ?_
  obtain ⟨state, hrun, hpre⟩ : ∃ state, runActions exampleFormats nestedCall
      { files := nestedFarm, receiptRoot := none } stop = .ok state ∧
        stop <+: retirementScript nestedCall [["runs", "old", "farm"]] := by
    rcases List.mem_pair.mp hstop with rfl | rfl
    · exact ⟨_, rfl, nil_prefix⟩
    · obtain ⟨state, hrun, -⟩ := run_nestedFarm
      exact ⟨state, hrun, (prefix_append _ _).trans (prefix_append _ _)⟩
  refine ⟨_, state, retirement_crash_safe_iff ?_ accept_nestedFarm hpre hrun⟩
  intro l l' heq
  have hlist := congrArg (fun s => s.toList.length) heq
  simpa [exampleFormats] using hlist

end EmuFlow.ExperimentStore
