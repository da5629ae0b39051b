import EmuFlow.ExperimentStore.Retirement

/-!
# How far an application has come

The state at each point where an application can stop once the farms are marked: what is below each
candidate is what was there with the markers of its farms, whether it has been moved or not.
-/

namespace EmuFlow.ExperimentStore

open Check SortedSet List DirectoryTree
open DirectoryTree (Apart apart_of_length_eq)

variable {α : Type} {F : RunFormats α} {call : RetirementCall} {state state' : RetirementState α}
  {files : RunTree α} {farms : List Path} {candidate : RetirementCandidate}

def RetirementCall.source (call : RetirementCall) (candidate : RetirementCandidate) : Path :=
  call.plan.root ++ [candidate.name]

def RetirementCall.destination (call : RetirementCall) (candidate : RetirementCandidate) : Path :=
  quarantinePath call.plan.root call.expectedSha256 candidate.name

theorem runActions_append {first second : List RetirementAction} :
    runActions F call state (first ++ second) = .ok state' ↔
      ∃ middle, runActions F call state first = .ok middle ∧
        runActions F call middle second = .ok state' := by
  unfold runActions
  rw [foldlM_append, bind_eq_ok]

theorem runActions_cons {action : RetirementAction} {rest : List RetirementAction} :
    runActions F call state (action :: rest) = .ok state' ↔
      ∃ middle, runAction F call state action = .ok middle ∧
        runActions F call middle rest = .ok state' := by
  unfold runActions
  rw [foldlM_cons, bind_eq_ok]

theorem runActions_nil : runActions F call state [] = .ok state' ↔ state = state' := by
  unfold runActions
  rw [foldlM_nil]
  exact ⟨Except.ok.inj, fun h => congrArg Except.ok h⟩

theorem osError_eq_ok {β : Type} {o : Option β} {b : β} : osError o = .ok b ↔ o = some b := by
  cases o <;> simp [osError]

theorem onReceiptRoot_eq_ok {f : ReceiptRoot α → ReceiptRoot α} :
    onReceiptRoot state f = .ok state' ↔ ∃ r, state.receiptRoot = some r ∧
      state' = { state with receiptRoot := some (f r) } := by
  unfold onReceiptRoot
  rw [bind_eq_ok]
  constructor
  · rintro ⟨r, hr, h⟩
    exact ⟨r, osError_eq_ok.mp hr, (Except.ok.inj h).symm⟩
  · rintro ⟨r, hr, rfl⟩
    exact ⟨r, osError_eq_ok.mpr hr, rfl⟩

/-! ## paths -/

theorem quarantinePath_inj {root : Path} {sha256 name name' : String} :
    quarantinePath root sha256 name = quarantinePath root sha256 name' ↔ name = name' := by
  unfold quarantinePath
  constructor
  · intro h
    have hn := (List.cons.inj (append_cancel_left h)).1
    have hl := congrArg String.toList hn
    simp only [String.toList_append, append_assoc] at hl
    exact String.toList_inj.mp (append_cancel_right (append_cancel_left hl))
  · rintro rfl
    rfl

theorem length_source : (call.source candidate).length = call.plan.root.length + 1 := by
  simp [RetirementCall.source]

theorem length_destination : (call.destination candidate).length = call.plan.root.length + 1 := by
  simp [RetirementCall.destination, quarantinePath]

/-- The candidates have different places, and no candidate is where another one is moved to. -/
structure Distinct (call : RetirementCall) : Prop where
  destination_ne_source : ∀ a ∈ call.plan.candidates, ∀ b ∈ call.plan.candidates,
    call.destination a ≠ call.source b

variable {a b : RetirementCandidate}

section

variable (ha : a ∈ call.plan.candidates) (hb : b ∈ call.plan.candidates)
include ha hb

theorem name_inj (h : a.name = b.name) : a = b := inj_on_of_nodup_map call.plan.names_nodup ha hb h

theorem apart_sources (hne : a ≠ b) : Apart (call.source a) (call.source b) := by
  refine apart_of_length_eq (by rw [length_source, length_source]) fun h => hne ?_
  exact name_inj ha hb (List.cons.inj (append_cancel_left h)).1

theorem apart_destinations (hne : a ≠ b) : Apart (call.destination a) (call.destination b) := by
  refine apart_of_length_eq (by rw [length_destination, length_destination]) fun h => hne ?_
  exact name_inj ha hb (quarantinePath_inj.mp h)

end

theorem Distinct.apart (h : Distinct call)
    (ha : a ∈ call.plan.candidates) (hb : b ∈ call.plan.candidates) :
    Apart (call.destination a) (call.source b) :=
  apart_of_length_eq (by rw [length_source, length_destination]) (h.destination_ne_source a ha b hb)

/-! ## acceptance -/

def farmsOf (call : RetirementCall) (files : RunTree α) (candidate : RetirementCandidate) :
    List Path := farmDirectories (files.below (call.source candidate))

structure Accepted (F : RunFormats α) (state : RetirementState α) (call : RetirementCall)
    (farms : List Path) : Prop where
  candidate : ∀ c ∈ call.plan.candidates, state.files.find (call.source c) = some .directory ∧
      retirementReasons F state.files (call.source c) = [] ∧
        sealEntries F (state.files.below (call.source c)) = c.toSeal ∧ isSafeName c.name = true ∧
          isOuterName c.name = false
  plan : F.planSha256 call.plan = call.expectedSha256 ∧
    call.plan.schema = EXPERIMENT_RETIREMENT_PLAN_SCHEMA ∧ call.plan.status = "planned"
  farms : farms = call.plan.candidates.flatMap fun c =>
    (farmsOf call state.files c).map (call.source c ++ ·)

@[simp] theorem withoutIgnored_nil (entries : RunEntries α) :
    withoutIgnored [] entries = entries := by
  unfold withoutIgnored
  simp

theorem retirementArtifactDigest_of_directory {path : Path} {ignored : List Path}
    (h : files.find path = some .directory) : retirementArtifactDigest F files path ignored =
      .ok (sealEntries F (withoutIgnored ignored (files.below path))) := by
  unfold retirementArtifactDigest
  rw [h]

theorem accepted_of_acceptRetirement (h : acceptRetirement F state call = .ok farms) :
    Accepted F state call farms := by
  obtain ⟨hs, h⟩ := raiseIf_bind.mp h
  obtain ⟨hp, h⟩ := raiseIf_bind.mp h
  obtain ⟨-, h⟩ := raiseIf_bind.mp h
  obtain ⟨-, h⟩ := raiseIf_bind.mp h
  obtain ⟨-, h⟩ := raiseIf_bind.mp h
  obtain ⟨locked, hl, h⟩ := bind_eq_ok.mp h
  have hcn : ∀ c b, validateCandidate F state.files call c = .ok b →
        (state.files.find (call.source c) = some .directory ∧
          retirementReasons F state.files (call.source c) = [] ∧
            sealEntries F (state.files.below (call.source c)) = c.toSeal ∧
              isSafeName c.name = true ∧ isOuterName c.name = false) ∧
          b = (farmsOf call state.files c).map (call.source c ++ ·) := by
    intro c b hb
    obtain ⟨hn, hb⟩ := raiseIf_bind.mp hb
    obtain ⟨ht, hb⟩ := raiseIf_bind.mp hb
    obtain ⟨acquired, hac, hb⟩ := bind_eq_ok.mp hb
    obtain ⟨hr, hb⟩ := raiseIf_bind.mp hb
    obtain ⟨digest, hd, hb⟩ := bind_eq_ok.mp hb
    obtain ⟨hsm, hb⟩ := raiseIf_bind.mp hb
    obtain ⟨_, -, hb⟩ := bind_eq_ok.mp hb
    rw [not_or, Bool.not_eq_true, Bool.not_eq_false, isDirectory_eq_true] at ht
    rw [retirementArtifactDigest_of_directory ht.2, withoutIgnored_nil] at hd
    refine ⟨⟨ht.2, not_not.mp hr, ?_, ?_, ht.1⟩, ?_⟩
    · rw [← not_not.mp hsm]
      exact Except.ok.inj hd
    · simpa using hn
    · have hm := map_of_mapM (g := id) (k := (call.source c ++ ·)) (fun farm directory hf => by
        obtain ⟨-, hf⟩ := raiseIf_bind.mp hf
        obtain ⟨-, hf⟩ := raiseIf_bind.mp hf
        obtain ⟨-, hf⟩ := raiseIf_bind.mp hf
        exact (Except.ok.inj hf).symm) hac
      rw [map_id] at hm
      rw [← Except.ok.inj hb, hm]
      rfl
  refine ⟨fun c hc => ?_, ?_, ?_⟩
  · obtain ⟨b, -, hb⟩ := mem_mapM_of_mem hl hc
    exact (hcn c b hb).1
  · rw [not_or, not_not, not_not] at hs hp
    exact ⟨hs.2, hp⟩
  · rw [← Except.ok.inj h, flatMap_def]
    have hm := map_of_mapM (g := id) (fun c b hb => (hcn c b hb).2) hl
    rw [map_id] at hm
    rw [hm]

def markEntry (F : RunFormats α) (call : RetirementCall) (farm : Path) :
    Path × FileEntry (RunFile α) :=
  (farm ++ [FARM_RETIREMENT_MARKER],
    .leaf (.file (F.pendingMarker { planSha256 := call.expectedSha256 })))

theorem run_marks : ∀ {farms : List Path} {state : RetirementState α},
    runActions F call state (farms.map .writeMarker) = .ok state' → farms.Nodup →
    (∀ farm ∈ farms, state.files.find (farm ++ [FARM_RETIREMENT_MARKER]) = none) →
      state'.files.entries = (farms.map (markEntry F call)).reverse ++ state.files.entries ∧
        state'.receiptRoot = state.receiptRoot
  | [], state, h, _, _ => by
    obtain rfl := runActions_nil.mp h
    exact ⟨rfl, rfl⟩
  | farm :: farms, state, h, hn, hnn => by
    obtain ⟨hf, hn⟩ := nodup_cons.mp hn
    obtain ⟨hnw, hrs⟩ := forall_mem_cons.mp hnn
    rw [map_cons] at h
    obtain ⟨middle, hm, h⟩ := runActions_cons.mp h
    obtain ⟨written, hw, hm⟩ := bind_eq_ok.mp hm
    rw [osError_eq_ok] at hw
    cases hm
    obtain ⟨he, hr⟩ := run_marks h hn fun other ho => by
      show written.find _ = none
      rw [find_writeLeaf hw, if_neg, hrs other ho]
      intro heq
      exact hf (append_cancel_right heq ▸ ho)
    refine ⟨?_, hr⟩
    rw [he, map_cons, reverse_cons, append_assoc, singleton_append]
    exact congrArg _ (entries_writeLeaf hw hnw)

/-! ## the moves -/

def Recorded (call : RetirementCall) (receipt : RetirementReceipt) (state : RetirementState α) :
    Prop :=
  ∃ r, state.receiptRoot = some r ∧ r.plan = some call.plan ∧ r.receipt = some receipt

theorem Recorded.write {receipt receipt' : RetirementReceipt} (h : Recorded call receipt state)
    (hw : runAction F call state (.writeReceipt receipt') = .ok state') :
    Recorded call receipt' state' ∧ state'.files = state.files := by
  obtain ⟨r, hr, hp, -⟩ := h
  obtain ⟨r', hr', rfl⟩ := onReceiptRoot_eq_ok.mp hw
  obtain rfl : r = r' := Option.some.inj (hr.symm.trans hr')
  exact ⟨⟨_, rfl, hp, rfl⟩, rfl⟩

structure Moving (call : RetirementCall) (marked : RunTree α)
    (moved rest : List RetirementCandidate) (files : RunTree α) : Prop where
  moved : ∀ c ∈ moved, files.below (call.destination c) = marked.below (call.source c) ∧
    files.find (call.destination c) = some .directory ∧ files.find (call.source c) = none
  rest : ∀ c ∈ rest, files.below (call.source c) = marked.below (call.source c) ∧
    files.find (call.source c) = some .directory

variable {marked : RunTree α} {moved rest middle : List RetirementCandidate}

theorem nodup_candidates : call.plan.candidates.Nodup :=
  Nodup.of_map RetirementCandidate.name call.plan.names_nodup

theorem Moving.rename (h : Moving call marked moved (candidate :: rest) files)
    (hdt : Distinct call) (hcn : call.plan.candidates = moved ++ candidate :: rest)
    {renamed : RunTree α}
    (hr : files.rename (call.source candidate) (call.destination candidate) = some renamed) :
    Moving call marked (moved ++ [candidate]) rest renamed := by
  obtain ⟨hcd, hrs⟩ := forall_mem_cons.mp h.rest
  have hm : ∀ c ∈ moved ++ candidate :: rest, c ∈ call.plan.candidates := by
    intro c hc
    rw [hcn]
    exact hc
  have hnd : (moved ++ candidate :: rest).Nodup := hcn ▸ nodup_candidates
  have hs := hm candidate (by simp)
  constructor
  · intro c hc
    rcases List.mem_append.mp hc with hc | hc
    · have hc' := hm c (by simp [hc])
      have hne : candidate ≠ c := by
        rintro rfl
        exact (disjoint_of_nodup_append hnd) hc (by simp)
      have hsr := (hdt.apart hc' hs).symm
      have hd := apart_destinations hs hc' hne
      obtain ⟨hbl, ht, hg⟩ := h.moved c hc
      rw [below_rename_of_apart hr hsr hd,
        find_rename_of_apart hr hsr hd,
        find_rename_of_apart hr (apart_sources hs hc' hne)
          (hdt.apart hs hc')]
      exact ⟨hbl, ht, hg⟩
    · obtain rfl := mem_singleton.mp hc
      rw [below_rename hr, find_rename_destination hr]
      exact ⟨hcd.1, hcd.2, find_rename_source hr (prefix_refl _)⟩
  · intro c hc
    have hc' := hm c (by simp [hc])
    have hne : candidate ≠ c := by
      rintro rfl
      exact (nodup_cons.mp (nodup_append.mp hnd).2.1).1 hc
    have hsr := apart_sources hs hc' hne
    have hd := hdt.apart hs hc'
    rw [below_rename_of_apart hr hsr hd,
      find_rename_of_apart hr hsr hd]
    exact hrs c hc

theorem Moving.run (hd : Distinct call) : ∀ {rest moved : List RetirementCandidate}
    {state : RetirementState α}, call.plan.candidates = moved ++ rest →
    Moving call marked moved rest state.files →
    Recorded call (movingReceipt call moved.length) state →
    runActions F call state ((rest.zipIdx moved.length).flatMap (moveActions call)) = .ok state' →
      Moving call marked call.plan.candidates [] state'.files ∧
        Recorded call (movingReceipt call call.plan.candidates.length) state'
  | [], moved, state, hc, hm, hr, h => by
    rw [append_nil] at hc
    obtain rfl := runActions_nil.mp h
    rw [hc]
    exact ⟨hm, hr⟩
  | candidate :: rest, moved, state, hc, hm, hr, h => by
    rw [zipIdx_cons, flatMap_cons] at h
    obtain ⟨middle, hp, h⟩ := runActions_append.mp h
    obtain ⟨renamed, hrn, hp⟩ := runActions_cons.mp hp
    obtain ⟨written, hw, hp⟩ := runActions_cons.mp hp
    obtain rfl := runActions_nil.mp hp
    obtain ⟨tree, ht, hrn⟩ := bind_eq_ok.mp hrn
    rw [osError_eq_ok] at ht
    cases hrn
    have hn := hm.rename hd hc ht
    have hpl : Recorded call (movingReceipt call moved.length)
        { state with files := tree } := hr
    obtain ⟨hr', hf⟩ := hpl.write hw
    have hl : (moved ++ [candidate]).length = moved.length + 1 := by simp
    exact @Moving.run hd rest (moved ++ [candidate]) written (by simpa using hc)
      (by rw [hf]; exact hn) (by rw [hl]; exact hr') (by rw [hl]; exact h)

/-! ## the preparation -/

structure Marked (F : RunFormats α) (call : RetirementCall) (start : RunTree α)
    (farms : List Path) (marked : RunTree α) : Prop where
  entries : marked.entries = (farms.map (markEntry F call)).reverse ++ start.entries
  unmarked : ∀ farm ∈ farms, start.find (farm ++ [FARM_RETIREMENT_MARKER]) = none

theorem Marked.find {start : RunTree α} (h : Marked F call start farms marked) {path : Path}
    {entry : FileEntry (RunFile α)} (hf : start.find path = some entry) :
    marked.find path = some entry := by
  by_cases hn : path = []
  · rw [hn] at hf ⊢
    exact hf
  · rw [find_eq_some hn, h.entries]
    exact mem_append_right _ ((find_eq_some hn).mp hf)

theorem run_tombstones : ∀ {actions : List RetirementAction} {state : RetirementState α},
    (∀ action ∈ actions, ∃ name marker, action = .copyTombstone name marker) →
    runActions F call state actions = .ok state' →
      state'.files = state.files ∧ ∀ r, state.receiptRoot = some r → ∃ r',
        state'.receiptRoot = some r' ∧ r'.plan = r.plan
  | [], state, _, h => by
    obtain rfl := runActions_nil.mp h
    exact ⟨rfl, fun r hr => ⟨r, hr, rfl⟩⟩
  | action :: actions, state, hal, h => by
    obtain ⟨⟨name, marker, rfl⟩, hrs⟩ := forall_mem_cons.mp hal
    obtain ⟨middle, hm, h⟩ := runActions_cons.mp h
    obtain ⟨content, -, hm⟩ := bind_eq_ok.mp hm
    obtain ⟨r, hr, rfl⟩ := onReceiptRoot_eq_ok.mp hm
    obtain ⟨hf, hp⟩ := run_tombstones hrs h
    refine ⟨hf, fun r' hr' => ?_⟩
    obtain rfl : r = r' := Option.some.inj (hr.symm.trans hr')
    obtain ⟨kept, hk, hs⟩ := hp _ rfl
    exact ⟨kept, hk, hs⟩

theorem nodup_farmDirectories (entries : RunEntries α) : (farmDirectories entries).Nodup := by
  refine Nodup.map_on (fun path hp other ho heq => ?_) (nodup_sortedSet _)
  have hl : ∀ path ∈ sortedSet
      ((entries.filter fun e => e.1.getLast? = some FARM_MANIFEST).map Prod.fst),
        path.dropLast ++ [FARM_MANIFEST] = path := by
    intro path hp
    obtain ⟨e, he, rfl⟩ := mem_map.mp (mem_sortedSet.mp hp)
    exact dropLast_append_getLast? _ (of_decide_eq_true (mem_filter.mp he).2)
  rw [← hl path hp, ← hl other ho, heq]

theorem Accepted.nodup_farms (h : Accepted F state call farms) : farms.Nodup := by
  rw [h.farms, nodup_flatMap]
  refine ⟨fun c _ => ?_, ?_⟩
  · exact (nodup_farmDirectories _).map fun a b hab => append_cancel_left hab
  · refine nodup_candidates.imp_of_mem ?_
    intro a b ha hb hne farm hf hf'
    obtain ⟨rest, -, rfl⟩ := mem_map.mp hf
    obtain ⟨rest', -, heq⟩ := mem_map.mp hf'
    exact (apart_sources ha hb hne).outside (prefix_append _ _) (heq ▸ prefix_append _ _)

def checks (call : RetirementCall) (farms : List Path) : List RetirementAction :=
  [.makeReceiptRoot, .copyPlan] ++
    (call.plan.candidates.flatMap fun candidate =>
      candidate.markers.map fun marker => .copyTombstone candidate.name marker.path) ++
    [.writeReceipt (movingReceipt call 0),
      .checkQuarantine (call.plan.candidates.map fun candidate =>
        quarantinePath call.plan.root call.expectedSha256 candidate.name),
      .checkUnmarked farms]

theorem preparation_eq : preparation call farms = checks call farms ++ farms.map .writeMarker := rfl

theorem run_checks (hap : Accepted F state call farms)
    (h : runActions F call state (checks call farms) = .ok state') :
    state'.files = state.files ∧ Recorded call (movingReceipt call 0) state' ∧ Distinct call ∧
      ∀ farm ∈ farms, state.files.find (farm ++ [FARM_RETIREMENT_MARKER]) = none := by
  unfold checks at h
  obtain ⟨copied, hcp, h⟩ := runActions_append.mp h
  obtain ⟨made, hmd, htm⟩ := runActions_append.mp hcp
  obtain ⟨empty, hem, hmd⟩ := runActions_cons.mp hmd
  cases hem
  obtain ⟨planned, hpn, hmd⟩ := runActions_cons.mp hmd
  obtain rfl := runActions_nil.mp hmd
  obtain ⟨r, hr, rfl⟩ := onReceiptRoot_eq_ok.mp hpn
  obtain ⟨hfl, hpl⟩ := run_tombstones (fun action hac => by
    obtain ⟨c, -, hac⟩ := mem_flatMap.mp hac
    obtain ⟨marker, -, rfl⟩ := mem_map.mp hac
    exact ⟨_, _, rfl⟩) htm
  obtain ⟨r', hr', hpl'⟩ := hpl _ rfl
  obtain ⟨written, hwr, h⟩ := runActions_cons.mp h
  obtain ⟨r'', hr'', rfl⟩ := onReceiptRoot_eq_ok.mp hwr
  obtain rfl : r' = r'' := Option.some.inj (hr'.symm.trans hr'')
  obtain ⟨checked, hch, h⟩ := runActions_cons.mp h
  obtain ⟨hds, hch⟩ := raiseIf_bind.mp hch
  cases hch
  obtain ⟨checked', hch', h⟩ := runActions_cons.mp h
  obtain ⟨hun, hch'⟩ := raiseIf_bind.mp hch'
  cases hch'
  obtain rfl := runActions_nil.mp h
  refine ⟨hfl, ⟨_, rfl, hpl', rfl⟩, ⟨fun a ha b hb heq => ?_⟩, fun farm hfr => ?_⟩
  · refine hds ⟨_, mem_map_of_mem ha, ?_⟩
    rw [hfl,
      show quarantinePath call.plan.root call.expectedSha256 a.name = call.source b from heq,
      (hap.candidate b hb).1]
    rfl
  · by_contra hth
    refine hun ⟨farm, hfr, ?_⟩
    rw [Option.isSome_iff_ne_none, hfl]
    exact hth

theorem run_preparation (hac : Accepted F state call farms)
    (h : runActions F call state (preparation call farms) = .ok state') :
    Marked F call state.files farms state'.files ∧ Recorded call (movingReceipt call 0) state' ∧
      Distinct call := by
  rw [preparation_eq] at h
  obtain ⟨unmarked, hc, hm⟩ := runActions_append.mp h
  obtain ⟨hf, ⟨r, hr, hrc⟩, hd, hn⟩ := run_checks hac hc
  rw [← hf] at hn
  obtain ⟨he, hrp⟩ := run_marks hm hac.nodup_farms hn
  rw [hf] at he hn
  exact ⟨⟨he, hn⟩, ⟨r, hrp.trans hr, hrc⟩, hd⟩

theorem Moving.start (hac : Accepted F state call farms)
    (h : Marked F call state.files farms marked) :
    Moving call marked [] call.plan.candidates marked :=
  ⟨by simp, fun c hc => ⟨rfl, h.find (hac.candidate c hc).1⟩⟩

theorem movingReceipt_length :
    movingReceipt call call.plan.candidates.length = removingReceipt call 0 := by
  simp [movingReceipt, removingReceipt]

structure Removing (call : RetirementCall) (marked : RunTree α)
    (removed rest : List RetirementCandidate) (files : RunTree α) : Prop where
  removed : ∀ c ∈ removed, files.find (call.destination c) = none ∧
    files.find (call.source c) = none
  rest : ∀ c ∈ rest, files.below (call.destination c) = marked.below (call.source c) ∧
    files.find (call.destination c) = some .directory ∧ files.find (call.source c) = none

variable {removed : List RetirementCandidate}

theorem Removing.removeTree (h : Removing call marked removed (candidate :: rest) files)
    (hd : Distinct call)
    (hcn : call.plan.candidates = removed ++ candidate :: rest) :
    Removing call marked (removed ++ [candidate]) rest
      (files.removeTree (call.destination candidate)) := by
  obtain ⟨hcd, hr⟩ := forall_mem_cons.mp h.rest
  have hm : ∀ c ∈ removed ++ candidate :: rest, c ∈ call.plan.candidates := by
    intro c hc
    rw [hcn]
    exact hc
  have hnd : (removed ++ candidate :: rest).Nodup := hcn ▸ nodup_candidates
  have hs := hm candidate (by simp)
  have hsr : ∀ c ∈ removed ++ candidate :: rest, files.find (call.source c) = none →
      (files.removeTree (call.destination candidate)).find (call.source c) = none := by
    intro c hc hnn
    rw [find_removeTree_outside (hd.apart hs (hm c hc)).1]
    exact hnn
  constructor
  · intro c hc
    rcases List.mem_append.mp hc with hc | hc
    · have hne : candidate ≠ c := by
        rintro rfl
        exact (disjoint_of_nodup_append hnd) hc (by simp)
      obtain ⟨hg, hnn⟩ := h.removed c hc
      have hap := apart_destinations hs (hm c (by simp [hc])) hne
      exact ⟨by rw [find_removeTree_outside hap.1, hg],
        hsr c (by simp [hc]) hnn⟩
    · obtain rfl := mem_singleton.mp hc
      refine ⟨?_, hsr c (by simp) hcd.2.2⟩
      have hn : call.destination c ≠ [] := by simp [RetirementCall.destination, quarantinePath]
      rw [find_removeTree _ hn, if_pos (prefix_refl _)]
  · intro c hc
    have hne : candidate ≠ c := by
      rintro rfl
      exact (nodup_cons.mp (nodup_append.mp hnd).2.1).1 hc
    have hap := apart_destinations hs (hm c (by simp [hc])) hne
    obtain ⟨hbl, ht, hnn⟩ := hr c hc
    rw [below_removeTree hap.1 hap.2,
      find_removeTree_outside hap.1]
    exact ⟨hbl, ht, hsr c (by simp [hc]) hnn⟩

theorem Removing.run (hd : Distinct call) : ∀ {middle removed : List RetirementCandidate}
    {state : RetirementState α}, call.plan.candidates = removed ++ middle ++ rest →
    Removing call marked removed (middle ++ rest) state.files →
    Recorded call (removingReceipt call removed.length) state →
    runActions F call state ((middle.zipIdx removed.length).flatMap (removeActions call)) =
        .ok state' → Removing call marked (removed ++ middle) rest state'.files ∧
        Recorded call (removingReceipt call (removed ++ middle).length) state'
  | [], removed, state, _, hrm, hrc, h => by
    obtain rfl := runActions_nil.mp h
    rw [append_nil]
    exact ⟨hrm, hrc⟩
  | candidate :: middle, removed, state, hc, hrm, hrc, h => by
    rw [zipIdx_cons, flatMap_cons] at h
    obtain ⟨next, hp, h⟩ := runActions_append.mp h
    obtain ⟨gone, hg, hp⟩ := runActions_cons.mp hp
    obtain ⟨written, hw, hp⟩ := runActions_cons.mp hp
    obtain rfl := runActions_nil.mp hp
    cases hg
    have hc' : call.plan.candidates = removed ++ candidate :: (middle ++ rest) := by
      simpa using hc
    have hn := Removing.removeTree hrm hd hc'
    have hpl : Recorded call (removingReceipt call removed.length)
        { state with files := state.files.removeTree (call.destination candidate) } := hrc
    obtain ⟨hrc', hf⟩ := hpl.write hw
    have hl : (removed ++ [candidate]).length = removed.length + 1 := by simp
    have hr := @Removing.run hd middle (removed ++ [candidate]) written
      (by simpa using hc) (by rw [hf]; exact hn) (by rw [hl]; exact hrc')
      (by rw [hl]; exact h)
    simpa using hr

theorem prefix_removals : ∀ {candidates : List RetirementCandidate} {n : ℕ}
    {done : List RetirementAction}, done <+: (candidates.zipIdx n).flatMap (removeActions call) →
      ∃ removed rest, candidates = removed ++ rest ∧
        (done = (removed.zipIdx n).flatMap (removeActions call) ∨
          ∃ c rest', rest = c :: rest' ∧ done = (removed.zipIdx n).flatMap (removeActions call) ++
            [.removeTree (call.destination c)])
  | [], n, done, h => ⟨[], [], rfl, .inl (prefix_nil.mp h)⟩
  | c :: candidates, n, done, h => by
    rw [zipIdx_cons, flatMap_cons, removeActions, cons_append, singleton_append] at h
    cases done with
    | nil => exact ⟨[], c :: candidates, rfl, .inl rfl⟩
    | cons action done =>
      obtain ⟨rfl, hr⟩ := cons_prefix_cons.mp h
      clear h
      cases done with
      | nil => exact ⟨[], c :: candidates, rfl, .inr ⟨c, candidates, rfl, rfl⟩⟩
      | cons write done =>
        obtain ⟨rfl, hl⟩ := cons_prefix_cons.mp hr
        obtain ⟨removed, rest, rfl, hd⟩ := prefix_removals hl
        refine ⟨c :: removed, rest, rfl, ?_⟩
        rw [zipIdx_cons, flatMap_cons]
        rcases hd with rfl | ⟨c', rest', heq, rfl⟩
        · exact .inl rfl
        · exact .inr ⟨c', rest', heq, rfl⟩

def doneRemovals (call : RetirementCall) (farms : List Path) (removed : List RetirementCandidate) :
    List RetirementAction :=
  preparation call farms ++ moves call ++ removed.zipIdx.flatMap (removeActions call)

theorem removing_of_run (hac : Accepted F state call farms)
    (hc : call.plan.candidates = removed ++ rest)
    (h : runActions F call state (doneRemovals call farms removed) = .ok state') :
    ∃ marked, Marked F call state.files farms marked ∧ Distinct call ∧
      Removing call marked removed rest state'.files ∧
        Recorded call (removingReceipt call removed.length) state' := by
  obtain ⟨moved, hm, hrv⟩ := runActions_append.mp h
  obtain ⟨prepared, hp, hm⟩ := runActions_append.mp hm
  obtain ⟨hmr, hr, hd⟩ := run_preparation hac hp
  obtain ⟨hmv, hr⟩ := Moving.run hd rfl (Moving.start hac hmr)
    hr hm
  rw [movingReceipt_length] at hr
  have hs : Removing call prepared.files [] (removed ++ rest) moved.files :=
    ⟨by simp, by rw [← hc]; exact hmv.moved⟩
  obtain ⟨hrm, hr⟩ := Removing.run hd hc hs hr hrv
  exact ⟨prepared.files, hmr, hd, hrm, hr⟩

end EmuFlow.ExperimentStore
