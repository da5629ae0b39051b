import EmuFlow.ExperimentStore.Gc

/-!
# What garbage collection removes

The checks of a candidate look only at its own tree, and the trees of the candidates of a plan are
apart, so that what each check says in the loop it says of the cache the application starts from.
-/

namespace EmuFlow.ExperimentStore

open Check SortedSet List DirectoryTree
open DirectoryTree (Apart apart_of_length_eq)

variable {α : Type} {F : Formats α} {world : World α} {cacheRoot path root : Path}
  {files : DirectoryTree String α} {roots : List String} {candidate : GcCandidate}
  {plan : GcPlan}

def GcCandidate.location (cacheRoot : Path) (candidate : GcCandidate) : Path :=
  cacheRoot ++ candidate.path.parts

/-- What a plan says of its candidates: each is an entry of an area, listed once. -/
structure Planned (plan : GcPlan) : Prop where
  schema : plan.schema = EXPERIMENT_GC_PLAN_SCHEMA
  status : plan.status = "planned"
  entry : ∀ candidate ∈ plan.candidates, candidate.area ∈ areas ∧
    ∃ name, candidate.path = { absolute := false, parts := [candidate.area, name] }
  nodup : (plan.candidates.map fun candidate => candidate.path.parts).Nodup

theorem gcCandidate_eq_some {age : Path → ℚ} {minimumAgeSeconds : ℤ} {area name : String}
    (h : gcCandidate F world age minimumAgeSeconds cacheRoot roots area name = some candidate) :
    candidate.area = area ∧ candidate.path = { absolute := false, parts := [area, name] } := by
  unfold gcCandidate at h
  dsimp only at h
  by_cases hr : area = "objects" ∧ name ∈ roots
  · rw [if_pos hr] at h
    cases h
  · rw [if_neg hr] at h
    by_cases ha : max 0 (age (cacheRoot ++ [area, name])) < minimumAgeSeconds
    · rw [if_pos ha] at h
      cases h
    · rw [if_neg ha] at h
      rw [← Option.some.inj h]
      exact ⟨rfl, rfl⟩

variable {rootPlans : List String}

theorem planned_of_planExperimentGc {age : Path → ℚ}
    {minimumAgeSeconds : ℤ}
    (h : planExperimentGc F world age cacheRoot rootPlans minimumAgeSeconds = .ok plan) :
    Planned plan ∧ plan.cacheRoot = cacheRoot := by
  obtain ⟨-, h⟩ := raiseIf_bind.mp h
  obtain ⟨sources, -, h⟩ := bind_eq_ok.mp h
  have hpl := (Except.ok.inj h).symm
  subst hpl
  refine ⟨⟨rfl, rfl, ?_, ?_⟩, rfl⟩
  · intro candidate hcn
    obtain ⟨area, har, hcn⟩ := mem_flatMap.mp hcn
    obtain ⟨name, -, hn⟩ := mem_filterMap.mp hcn
    obtain ⟨rfl, hpt⟩ := gcCandidate_eq_some hn
    exact ⟨har, name, hpt⟩
  · show ((areas.flatMap _).map fun c : GcCandidate => c.path.parts).Nodup
    rw [map_flatMap, nodup_flatMap]
    refine ⟨fun area _ => ?_, ?_⟩
    · unfold areaCandidates
      rw [map_filterMap]
      refine (nodup_sorted.mpr nodup_children).filterMap ?_
      intro name name' parts hn hn'
      obtain ⟨c, hc, rfl⟩ := Option.map_eq_some_iff.mp hn
      obtain ⟨c', hc', heq⟩ := Option.map_eq_some_iff.mp hn'
      rw [(gcCandidate_eq_some hc).2, (gcCandidate_eq_some hc').2] at heq
      simpa using heq.symm
    · have ha : areas.Nodup := by decide
      refine ha.imp ?_
      intro area area' hne parts hp hp'
      obtain ⟨c, hc, rfl⟩ := mem_map.mp hp
      obtain ⟨c', hc', heq⟩ := mem_map.mp hp'
      obtain ⟨name, -, hn⟩ := mem_filterMap.mp hc
      obtain ⟨name', -, hn'⟩ := mem_filterMap.mp hc'
      rw [(gcCandidate_eq_some hn).2, (gcCandidate_eq_some hn').2] at heq
      exact hne (List.cons.inj heq).1.symm

/-! ## one candidate -/

def Refused (F : Formats α) (cacheRoot : Path) (roots : List String)
    (files : DirectoryTree String α) (candidate : GcCandidate) : Prop :=
  (checkCandidate F cacheRoot roots files candidate).isOk = false

theorem checkCandidate_eq_ok (h : checkCandidate F cacheRoot roots files candidate = .ok path) :
    path = candidate.location cacheRoot ∧ files.find path ≠ none ∧
      artifactDigest F files path = candidate.toSeal ∧
        ¬ (candidate.area = "objects" ∧ path.getLast? ∈ roots.map some) := by
  obtain ⟨-, h⟩ := raiseIf_bind.mp h
  obtain ⟨-, h⟩ := raiseIf_bind.mp h
  obtain ⟨hr, h⟩ := raiseIf_bind.mp h
  obtain ⟨hd, h⟩ := raiseIf_bind.mp h
  obtain ⟨hf, h⟩ := raiseIf_bind.mp h
  rw [← Except.ok.inj h]
  exact ⟨rfl, hf, not_not.mp hd, hr⟩

theorem exists_checkCandidate (h : ¬ Refused F cacheRoot roots files candidate) :
    checkCandidate F cacheRoot roots files candidate = .ok (candidate.location cacheRoot) := by
  obtain ⟨path, hp⟩ := exists_of_isOk (Bool.not_eq_false _ ▸ h)
  rw [hp, (checkCandidate_eq_ok hp).1]

theorem artifactDigest_removeTree (h : Apart root path) :
    artifactDigest F (files.removeTree root) path = artifactDigest F files path := by
  have hl : (files.removeTree root).leafAt path = files.leafAt path := by
    unfold leafAt
    rw [find_removeTree_outside h.1]
  unfold artifactDigest
  rw [hl, below_removeTree h.1 h.2]

theorem checkCandidate_removeTree (h : Apart root (candidate.location cacheRoot)) :
    checkCandidate F cacheRoot roots (files.removeTree root) candidate =
      checkCandidate F cacheRoot roots files candidate := by
  unfold GcCandidate.location at h
  unfold checkCandidate
  dsimp only
  rw [artifactDigest_removeTree h, find_removeTree_outside h.1]

theorem refused_removeTree (h : Apart root (candidate.location cacheRoot)) :
    Refused F cacheRoot roots (files.removeTree root) candidate ↔
      Refused F cacheRoot roots files candidate := by
  unfold Refused
  rw [checkCandidate_removeTree h]

theorem Planned.apart (h : Planned plan) :
    plan.candidates.Pairwise fun a b => Apart (a.location cacheRoot) (b.location cacheRoot) := by
  have hnd := pairwise_map.mp h.nodup
  refine hnd.imp_of_mem ?_
  intro a b ha hb hne
  obtain ⟨-, name, hn⟩ := h.entry a ha
  obtain ⟨-, name', hn'⟩ := h.entry b hb
  have hl : (a.location cacheRoot).length = (b.location cacheRoot).length := by
    simp [GcCandidate.location, hn, hn']
  exact apart_of_length_eq hl fun heq => hne (append_cancel_left heq)

theorem find_removeCandidates_none : ∀ {candidates : List GcCandidate}
    {files : DirectoryTree String α}, files.find path = none →
      (removeCandidates F cacheRoot roots files candidates).2.find path = none
  | [], _, h => h
  | candidate :: rest, files, h => by
    rw [removeCandidates]
    split
    · exact h
    · refine find_removeCandidates_none ?_
      by_cases hn : path = []
      · rw [hn, DirectoryTree.find_nil] at h
        cases h
      · rw [DirectoryTree.find_removeTree _ hn]
        split_ifs
        · rfl
        · exact h

theorem removeCandidates_of_accepted : ∀ {candidates : List GcCandidate}
    {files : DirectoryTree String α},
    (candidates.Pairwise fun a b => Apart (a.location cacheRoot) (b.location cacheRoot)) →
    (∀ candidate ∈ candidates, ¬ Refused F cacheRoot roots files candidate) →
      (removeCandidates F cacheRoot roots files candidates).1 = .ok () ∧
      ∀ path, path ≠ [] → (removeCandidates F cacheRoot roots files candidates).2.find path =
        if ∃ candidate ∈ candidates, candidate.location cacheRoot <+: path then none
        else files.find path
  | [], files, _, _ => ⟨rfl, fun path _ => by simp [removeCandidates]⟩
  | candidate :: rest, files, hap, ha => by
    obtain ⟨hf, hr⟩ := pairwise_cons.mp hap
    obtain ⟨hcn, hl⟩ := forall_mem_cons.mp ha
    rw [removeCandidates, exists_checkCandidate hcn]
    obtain ⟨hok, hfn⟩ := @removeCandidates_of_accepted rest
      (files.removeTree (candidate.location cacheRoot)) hr fun c hc => by
        rw [refused_removeTree (hf c hc)]
        exact hl c hc
    refine ⟨hok, fun path hp => ?_⟩
    rw [hfn path hp, find_removeTree _ hp]
    simp only [exists_mem_cons_iff]
    by_cases hh : candidate.location cacheRoot <+: path
    · simp [hh]
    · simp [hh]

theorem removeCandidates_of_refused : ∀ {candidates : List GcCandidate}
    {files : DirectoryTree String α},
    (candidates.Pairwise fun a b => Apart (a.location cacheRoot) (b.location cacheRoot)) →
    (∃ candidate ∈ candidates, Refused F cacheRoot roots files candidate) →
      ∃ e, (removeCandidates F cacheRoot roots files candidates).1 = .error e
  | [], _, _, h => by
    obtain ⟨_, hm, -⟩ := h
    cases hm
  | candidate :: rest, files, ha, hr => by
    obtain ⟨hf, hrs⟩ := pairwise_cons.mp ha
    rw [removeCandidates]
    split
    · next e _ => exact ⟨e, rfl⟩
    · next path hp =>
      rw [(checkCandidate_eq_ok hp).1]
      refine removeCandidates_of_refused hrs ?_
      obtain ⟨c, hc, hcr⟩ := hr
      rcases mem_cons.mp hc with rfl | hc
      · unfold Refused at hcr
        rw [hp] at hcr
        cases hcr
      · exact ⟨c, hc, (refused_removeTree (hf c hc)).mpr hcr⟩

def RootNode (world : World α) (rootPlans : List String) (node : PlanNode) : Prop :=
  ∃ path ∈ rootPlans, ∃ plan, loadPlan world path = .ok plan ∧ node ∈ plan.nodes

variable {object : String}

theorem mem_of_outputObject {objectRoot : Path} {node : PlanNode} {found : Option String}
    (h : outputObject objectRoot node = .ok found)
    (hp : objectRoot ++ [object] <+: node.outputDir.parts) : found = some object := by
  obtain ⟨-, h⟩ := raiseIf_bind.mp h
  obtain ⟨rest, hr⟩ := hp
  have hrt : objectRoot <+: node.outputDir.parts := by
    rw [← hr, append_assoc]
    exact prefix_append _ _
  have hd : node.outputDir.parts.drop objectRoot.length = object :: rest := by
    rw [← hr, append_assoc, drop_left]
    rfl
  rw [if_pos hrt, hd] at h
  split at h
  · next object' output heq =>
    obtain ⟨-, h⟩ := raiseIf_bind.mp h
    rw [← Except.ok.inj h, (List.cons.inj heq).1]
  · cases h

theorem mem_rootKeys {sources : List RootSource}
    (h : rootExecutionKeys world rootPlans cacheRoot = .ok sources) {node : PlanNode}
    (hn : RootNode world rootPlans node) :
    node.executionKey ∈ rootKeys sources ∧
      ∀ object, cacheRoot ++ ["objects", object] <+: node.outputDir.parts →
        object ∈ rootKeys sources := by
  obtain ⟨path, hpt, plan, hp, hm⟩ := hn
  obtain ⟨source, hs, hr⟩ := mem_mapM_of_mem h hpt
  obtain ⟨plan', hp', hr⟩ := bind_eq_ok.mp hr
  obtain rfl : plan = plan' := Except.ok.inj (hp.symm.trans hp')
  simp only [raiseIf_bind] at hr
  obtain ⟨-, -, hr⟩ := hr
  obtain ⟨aliases, ha, hr⟩ := bind_eq_ok.mp hr
  have hk : source.objectKeys = sortedSet
      (sorted (plan.nodes.map PlanNode.executionKey) ++ aliases.filterMap id) := by
    rw [← Except.ok.inj hr]
  refine ⟨mem_flatMap.mpr ⟨source, hs, ?_⟩, fun object hob =>
    mem_flatMap.mpr ⟨source, hs, ?_⟩⟩
  · rw [hk, mem_sortedSet, List.mem_append, mem_sorted]
    exact .inl (mem_map_of_mem hm)
  · obtain ⟨found, hf, ho⟩ := mem_mapM_of_mem ha hm
    have hpr : objectRoot cacheRoot ++ [object] <+: node.outputDir.parts := by
      unfold objectRoot
      rwa [append_assoc]
    rw [hk, mem_sortedSet, List.mem_append, mem_filterMap]
    exact .inr ⟨found, hf, mem_of_outputObject ho hpr⟩

/-! ## safety -/

def objectPath (cacheRoot : Path) (object : String) : Path := cacheRoot ++ ["objects", object]

def RecordedIn (F : Formats α) (files : DirectoryTree String α) (cacheRoot : Path)
    (node : PlanNode) (object : String) : Prop :=
  ∃ content, files.leafAt (cacheRoot ++ ["objects", node.executionKey, "checkpoint.json"]) =
    some content ∧ ∃ dir, F.outputDir content = some dir ∧ objectPath cacheRoot object <+: dir

/-- The object holds the manifest or the payload of the node; where the payload is, the plan or the
manifest says. -/
def Holds (F : Formats α) (files : DirectoryTree String α) (cacheRoot : Path)
    (node : PlanNode) (object : String) : Prop :=
  object = node.executionKey ∨ objectPath cacheRoot object <+: node.outputDir.parts ∨
    RecordedIn F files cacheRoot node object

/-- No object that holds something of a node of a root plan has lost anything. -/
def Safe (F : Formats α) (world : World α) (plan : GcPlan) (applied : Applied α) : Prop :=
  ∀ node, RootNode world (plan.roots.map RootSource.path) node →
    ∀ object, Holds F world.files plan.cacheRoot node object →
      ∀ path, objectPath plan.cacheRoot object <+: path →
        applied.files.find path = world.files.find path

/-- What was removed is known: on return the trees of the receipt, each as it was sealed in the
plan; on an exception nothing. -/
def Accounted (F : Formats α) (world : World α) (plan : GcPlan) (applied : Applied α) : Prop :=
  match applied.result with
  | .ok receipt =>
    (∀ candidate ∈ receipt.removed, candidate ∈ plan.candidates ∧
      world.files.find (candidate.location plan.cacheRoot) ≠ none ∧
        artifactDigest F world.files (candidate.location plan.cacheRoot) = candidate.toSeal) ∧
    ∀ path, ¬ path <+: receiptPath plan.cacheRoot receipt.planSha256 → applied.files.find path =
        if ∃ candidate ∈ receipt.removed, candidate.location plan.cacheRoot <+: path then none
        else world.files.find path
  | .error _ => ∀ path, world.files.find path ≠ none →
      applied.files.find path = world.files.find path

/-- The states an application is safe and accounted for in: it stops before it removes anything, or
no check refuses a candidate, no candidate is the object that a manifest of a root node names, and
the receipt can be written. -/
def Sound (F : Formats α) (world : World α) (plan : GcPlan) (expectedSha256 : String) : Prop :=
  ∀ roots, approve F world plan expectedSha256 = .ok roots → ∀ first ∈ plan.candidates.head?,
    ¬ Refused F plan.cacheRoot roots world.files first →
      (∀ candidate ∈ plan.candidates, ¬ Refused F plan.cacheRoot roots world.files candidate) ∧
      (∀ candidate ∈ plan.candidates, ∀ node,
        RootNode world (plan.roots.map RootSource.path) node → ∀ object,
          candidate.path.parts = ["objects", object] →
            ¬ RecordedIn F world.files plan.cacheRoot node object) ∧
      world.files.Writable (receiptPath plan.cacheRoot expectedSha256)

variable {expectedSha256 : String}

theorem approve_eq_ok (h : approve F world plan expectedSha256 = .ok roots) : ∃ sources,
      rootExecutionKeys world (plan.roots.map RootSource.path) plan.cacheRoot = .ok sources ∧
        roots = rootKeys sources := by
  obtain ⟨-, h⟩ := raiseIf_bind.mp h
  obtain ⟨-, h⟩ := raiseIf_bind.mp h
  obtain ⟨sources, hs, h⟩ := bind_eq_ok.mp h
  exact ⟨sources, hs, (Except.ok.inj h).symm⟩

theorem not_mem_roots (hp : Planned plan) (hc : candidate ∈ plan.candidates)
    (ha : ¬ Refused F cacheRoot roots files candidate)
    (ho : candidate.path.parts = ["objects", object]) : object ∉ roots := by
  intro hm
  obtain ⟨-, name, hn⟩ := hp.entry candidate hc
  have har : candidate.area = "objects" := by
    rw [hn] at ho
    exact (List.cons.inj ho).1
  refine (checkCandidate_eq_ok (exists_checkCandidate ha)).2.2.2 ⟨har, ?_⟩
  unfold GcCandidate.location
  rw [ho, getLast?_append]
  exact mem_map_of_mem hm

theorem notBelow_receipt (hp : Planned plan) (hc : candidate ∈ plan.candidates)
    {sha256 : String} (hpt : path <+: receiptPath cacheRoot sha256) :
    ¬ candidate.location cacheRoot <+: path := by
  intro hl
  obtain ⟨ha, name, hn⟩ := hp.entry candidate hc
  have hpr := hl.trans hpt
  unfold GcCandidate.location receiptPath at hpr
  rw [hn, prefix_append_right_inj] at hpr
  rw [(cons_prefix_cons.mp hpr).1] at ha
  revert ha
  decide

theorem notBelow_receipt_of_object {object sha256 : String}
    (hp : objectPath cacheRoot object <+: path) : ¬ path <+: receiptPath cacheRoot sha256 := by
  intro hr
  have hpr := hp.trans hr
  unfold objectPath receiptPath at hpr
  rw [prefix_append_right_inj] at hpr
  have := (cons_prefix_cons.mp hpr).1
  revert this
  decide

theorem parts_eq_of_prefix (hp : Planned plan) (hc : candidate ∈ plan.candidates)
    (hlc : candidate.location cacheRoot <+: path)
    (ho : objectPath cacheRoot object <+: path) :
    candidate.path.parts = ["objects", object] := by
  obtain ⟨-, name, hn⟩ := hp.entry candidate hc
  have hl : (candidate.location cacheRoot).length = (objectPath cacheRoot object).length := by
    simp [GcCandidate.location, objectPath, hn]
  have hpr := prefix_of_prefix_length_le hlc ho hl.le
  exact append_cancel_left (hpr.eq_of_length hl)

theorem ne_nil_of_object (ho : objectPath cacheRoot object <+: path) : path ≠ [] := by
  rintro rfl
  have := prefix_nil.mp ho
  simp [objectPath] at this

/-! ## the application -/

theorem applied_of_accepted (hp : Planned plan)
    (hap : approve F world plan expectedSha256 = .ok roots)
    (ha : ∀ candidate ∈ plan.candidates,
      ¬ Refused F plan.cacheRoot roots world.files candidate) :
    ∃ files, (∀ path, path ≠ [] → files.find path =
        if ∃ candidate ∈ plan.candidates, candidate.location plan.cacheRoot <+: path then none
        else world.files.find path) ∧
      applyExperimentGc F world plan expectedSha256 = writeReceipt F plan.cacheRoot
          { planSha256 := expectedSha256
            removed := plan.candidates
            removedBytes := (plan.candidates.map fun candidate => candidate.bytes).sum } files := by
  obtain ⟨hok, hf⟩ := removeCandidates_of_accepted hp.apart ha
  refine ⟨_, hf, ?_⟩
  unfold applyExperimentGc
  rw [hap]
  dsimp only
  split
  · next e files heq =>
    rw [heq] at hok
    cases hok
  · next files heq => rw [heq]

theorem writable_iff (hp : Planned plan) {sha256 : String}
    (hf : ∀ path, path ≠ [] → files.find path =
      if ∃ candidate ∈ plan.candidates, candidate.location plan.cacheRoot <+: path then none
      else world.files.find path) :
    files.Writable (receiptPath plan.cacheRoot sha256) ↔
      world.files.Writable (receiptPath plan.cacheRoot sha256) := by
  have hs : ∀ path, path <+: receiptPath plan.cacheRoot sha256 →
      files.find path = world.files.find path := by
    intro path hpt
    by_cases hn : path = []
    · rw [hn, find_nil, find_nil]
    · rw [hf path hn, if_neg]
      rintro ⟨candidate, hc, hpr⟩
      exact notBelow_receipt hp hc hpt hpr
  unfold DirectoryTree.Writable
  rw [hs _ (prefix_refl _)]
  refine and_congr_right fun _ => and_congr_left fun _ => ?_
  refine forall_congr' fun pre => forall_congr' fun hpr => forall_congr' fun c => ?_
  rw [hs pre (hpr.trans ( dropLast_prefix _))]

theorem safe_and_accounted_of_kept {applied : Applied α}
    (hk : ∀ path, world.files.find path ≠ none → applied.files.find path = world.files.find path)
    (ho : ∀ object path, objectPath plan.cacheRoot object <+: path →
      applied.files.find path = world.files.find path)
    (her : ∃ e, applied.result = .error e) :
    Safe F world plan applied ∧ Accounted F world plan applied := by
  obtain ⟨e, he⟩ := her
  refine ⟨fun node _ object _ path hp => ho object path hp, ?_⟩
  unfold Accounted
  rw [he]
  exact hk

theorem find_location (hp : Planned plan) (hc : candidate ∈ plan.candidates)
    (hf : ∀ path, path ≠ [] → files.find path =
      if ∃ candidate ∈ plan.candidates, candidate.location plan.cacheRoot <+: path then none
      else world.files.find path) : files.find (candidate.location plan.cacheRoot) = none := by
  obtain ⟨-, name, hn⟩ := hp.entry candidate hc
  rw [hf _ (by simp [GcCandidate.location, hn]), if_pos]
  exact ⟨candidate, hc, prefix_refl _⟩

theorem applied_of_late_refusal (hp : Planned plan)
    (hap : approve F world plan expectedSha256 = .ok roots) {first : GcCandidate}
    (hf : first ∈ plan.candidates.head?)
    (ha : ¬ Refused F plan.cacheRoot roots world.files first)
    (hr : ∃ candidate ∈ plan.candidates,
      Refused F plan.cacheRoot roots world.files candidate) :
    (∃ e, (applyExperimentGc F world plan expectedSha256).result = .error e) ∧
      (applyExperimentGc F world plan expectedSha256).files.find
        (first.location plan.cacheRoot) = none := by
  obtain ⟨e, he⟩ := removeCandidates_of_refused hp.apart hr
  have hn : (removeCandidates F plan.cacheRoot roots world.files plan.candidates).2.find
      (first.location plan.cacheRoot) = none := by
    have hen := hp.entry first (List.mem_of_mem_head? hf)
    cases hc : plan.candidates with
    | nil => simp [hc] at hf
    | cons candidate rest =>
      obtain rfl : candidate = first := by simpa [hc] using hf
      obtain ⟨-, name, hnm⟩ := hen
      rw [removeCandidates, exists_checkCandidate ha]
      refine find_removeCandidates_none ?_
      rw [find_removeTree _ (by simp [GcCandidate.location, hnm]),
        if_pos (prefix_refl _)]
  unfold applyExperimentGc
  rw [hap]
  dsimp only
  split
  · next e' files heq =>
    rw [heq] at hn
    exact ⟨⟨e', rfl⟩, hn⟩
  · next files heq =>
    rw [heq] at he
    cases he

/-- **When every candidate is removed and the receipt is written, the application is safe if no
manifest of a root node names a candidate.** -/
theorem safe_and_accounted_of_written (hpl : Planned plan)
    (hap : approve F world plan expectedSha256 = .ok roots)
    (ha : ∀ candidate ∈ plan.candidates,
      ¬ Refused F plan.cacheRoot roots world.files candidate)
    (hf : ∀ path, path ≠ [] → files.find path =
      if ∃ candidate ∈ plan.candidates, candidate.location plan.cacheRoot <+: path then none
      else world.files.find path)
    (hrr : ∀ candidate ∈ plan.candidates, ∀ node,
      RootNode world (plan.roots.map RootSource.path) node → ∀ object,
        candidate.path.parts = ["objects", object] →
          ¬ RecordedIn F world.files plan.cacheRoot node object)
    {receipt : GcReceipt} (hr : receipt.removed = plan.candidates)
    {written : DirectoryTree String α} {content : α}
    (hw : files.writeFile (receiptPath plan.cacheRoot receipt.planSha256) content =
      some written) :
    Safe F world plan { result := .ok receipt, files := written } ∧
      Accounted F world plan { result := .ok receipt, files := written } := by
  obtain ⟨sources, hs, rfl⟩ := approve_eq_ok hap
  constructor
  · intro node hnd object hh path hp
    show written.find path = world.files.find path
    rw [find_writeFile hw (notBelow_receipt_of_object hp),
      hf path (ne_nil_of_object hp), if_neg]
    rintro ⟨candidate, hc, hl⟩
    have hpr := parts_eq_of_prefix hpl hc hl hp
    have hrt := not_mem_roots hpl hc (ha candidate hc) hpr
    obtain ⟨hk, hd⟩ := mem_rootKeys hs hnd
    rcases hh with rfl | hdc | hrc
    · exact hrt hk
    · exact hrt (hd object hdc)
    · exact hrr candidate hc node hnd object hpr hrc
  · refine ⟨fun candidate hc => ?_, fun path hp => ?_⟩
    · rw [hr] at hc
      have hok := checkCandidate_eq_ok (exists_checkCandidate (ha candidate hc))
      exact ⟨hc, hok.2.1, hok.2.2.1⟩
    · have hn : path ≠ [] := by
        rintro rfl
        exact hp nil_prefix
      show written.find path = _
      rw [find_writeFile hw hp, hf path hn, hr]

/-- A safe application whose removals are known was made in a sound state. -/
theorem sound_of_safe (hp : Planned plan)
    (hs : Safe F world plan (applyExperimentGc F world plan expectedSha256))
    (ha : Accounted F world plan (applyExperimentGc F world plan expectedSha256)) :
    Sound F world plan expectedSha256 := by
  intro roots hap first hfr hac
  have hmem := List.mem_of_mem_head? hfr
  have ht := (checkCandidate_eq_ok (exists_checkCandidate hac)).2.1
  have hall : ∀ candidate ∈ plan.candidates,
      ¬ Refused F plan.cacheRoot roots world.files candidate := by
    by_contra hnt
    push Not at hnt
    obtain ⟨⟨e, he⟩, hn⟩ := applied_of_late_refusal hp hap hfr hac hnt
    unfold Accounted at ha
    rw [he] at ha
    rw [ha _ ht] at hn
    exact ht hn
  obtain ⟨files, hf, hal⟩ := applied_of_accepted hp hap hall
  rw [hal] at hs ha
  unfold writeReceipt at hs ha
  split at ha
  · next written hw =>
    rw [hw] at hs
    refine ⟨hall, ?_, ?_⟩
    · intro candidate hc node hnd object hpr hr
      have hl : candidate.location plan.cacheRoot = objectPath plan.cacheRoot object := by
        unfold GcCandidate.location objectPath
        rw [hpr]
      have hk := hs node hnd object (.inr (.inr hr)) _ (prefix_refl _)
      have hn : written.find (objectPath plan.cacheRoot object) = none := by
        rw [find_writeFile hw
          (notBelow_receipt_of_object (prefix_refl _)), ← hl,
          find_location hp hc hf]
      have ht := (checkCandidate_eq_ok
        (exists_checkCandidate (hall candidate hc))).2.1
      rw [hl, ← hk] at ht
      exact ht hn
    · exact (writable_iff hp hf).mp (exists_writeFile.mp ⟨_, hw⟩)
  · have hk := ha _ ht
    rw [← hk] at ht
    exact absurd (find_location hp hmem hf) ht

theorem safe_of_sound (hp : Planned plan)
    (ha : approve F world plan expectedSha256 = .ok roots)
    (hs : Sound F world plan expectedSha256) :
    Safe F world plan (applyExperimentGc F world plan expectedSha256) ∧
      Accounted F world plan (applyExperimentGc F world plan expectedSha256) := by
  have hs := hs roots ha
  cases hc : plan.candidates with
  | nil =>
    obtain ⟨files, hf, hap⟩ :=
      applied_of_accepted hp ha (by simp [hc])
    rw [hap]
    unfold writeReceipt
    split
    · next written hw =>
      exact safe_and_accounted_of_written hp ha (by simp [hc]) hf
        (by simp [hc]) rfl hw
    · have hsm : ∀ path, files.find path = world.files.find path := by
        intro path
        by_cases hnil : path = []
        · rw [hnil, find_nil, find_nil]
        · rw [hf path hnil, if_neg (by simp [hc])]
      exact safe_and_accounted_of_kept (fun path _ => hsm path)
        (fun _ path _ => hsm path) ⟨_, rfl⟩
  | cons first rest =>
    by_cases hr : Refused F plan.cacheRoot roots world.files first
    · obtain ⟨e, he⟩ : ∃ e, checkCandidate F plan.cacheRoot roots world.files first =
          .error e := by
        unfold Refused at hr
        cases hch : checkCandidate F plan.cacheRoot roots world.files first with
        | error e => exact ⟨e, rfl⟩
        | ok path => simp [hch, Except.isOk, Except.toBool] at hr
      have hap : applyExperimentGc F world plan expectedSha256 =
          { result := .error e, files := world.files } := by
        unfold applyExperimentGc
        rw [ha, hc]
        dsimp only
        rw [removeCandidates, he]
      rw [hap]
      exact safe_and_accounted_of_kept (fun _ _ => rfl) (fun _ _ _ => rfl) ⟨e, rfl⟩
    · obtain ⟨hall, hrc, hwr⟩ := hs first (by rw [hc]; rfl) hr
      obtain ⟨files, hf, hap⟩ := applied_of_accepted hp ha hall
      obtain ⟨written, hw⟩ := exists_writeFile.mpr
        ((writable_iff hp hf).mpr hwr)
      rw [hap]
      unfold writeReceipt
      rw [hw]
      exact safe_and_accounted_of_written hp ha hall hf hrc rfl hw

/-- **A garbage collection is safe, and what it removed is known, exactly in the sound states.** -/
theorem gc_safe_and_accounted_iff (F : Formats α) (planned world : World α) (age : Path → ℚ)
    (cacheRoot : Path) (rootPlans : List String) (minimumAgeSeconds : ℤ) (plan : GcPlan)
    (hplan : planExperimentGc F planned age cacheRoot rootPlans minimumAgeSeconds = .ok plan)
    (expectedSha256 : String) :
    (Safe F world plan (applyExperimentGc F world plan expectedSha256) ∧
      Accounted F world plan (applyExperimentGc F world plan expectedSha256)) ↔
        Sound F world plan expectedSha256 := by
  obtain ⟨hplanned, -⟩ := planned_of_planExperimentGc hplan
  refine ⟨fun h => sound_of_safe hplanned h.1 h.2, fun hsound => ?_⟩
  cases happrove : approve F world plan expectedSha256 with
  | error e =>
    have happly : applyExperimentGc F world plan expectedSha256 =
        { result := .error e, files := world.files } := by
      unfold applyExperimentGc
      rw [happrove]
    rw [happly]
    exact safe_and_accounted_of_kept (fun _ _ => rfl) (fun _ _ _ => rfl) ⟨e, rfl⟩
  | ok roots => exact safe_of_sound hplanned happrove hsound

def textFormats : Formats String where
  size := String.length
  sha256 := id
  canonicalSha256 records := ",".intercalate (records.map fun record => "/".intercalate record.path)
  gcPlanSha256 _ := String.ofList (List.replicate 64 '0')
  length_gcPlanSha256 _ := by decide
  receipt _ := "receipt"
  outputDir _ := none

def failureCache (second : String) : World String where
  readPlan path := .error (.raised "FileNotFoundError" path)
  planSha256 := id
  files := {
    entries := [(["cache"], .directory), (["cache", "failures"], .directory),
      (["cache", "failures", "first"], .leaf "log"),
        (["cache", "failures", "second"], .leaf second)]
    nodup := by simp
    below_root := by simp
    parents := by simp }

theorem gc_safe_and_accounted_iff_failures : ∃ plan,
    planExperimentGc textFormats (failureCache "log") (fun _ => 0) ["cache"] [] 0 = .ok plan ∧
      ((Safe textFormats (failureCache "log") plan
          (applyExperimentGc textFormats (failureCache "log") plan
            (textFormats.gcPlanSha256 plan)) ∧
        Accounted textFormats (failureCache "log") plan
          (applyExperimentGc textFormats (failureCache "log") plan
            (textFormats.gcPlanSha256 plan))) ↔
        Sound textFormats (failureCache "log") plan (textFormats.gcPlanSha256 plan)) := by
  obtain ⟨plan, hplan⟩ := exists_of_isOk (show
    (planExperimentGc textFormats (failureCache "log") (fun _ => 0) ["cache"] [] 0).isOk = true by
      decide +kernel)
  exact ⟨plan, hplan, gc_safe_and_accounted_iff textFormats (failureCache "log")
    (failureCache "log") (fun _ => 0) ["cache"] [] 0 plan hplan (textFormats.gcPlanSha256 plan)⟩

/-- The second log changes between the plan and its application, which removes the first and then
raises. -/
theorem removed_before_refusal : ∃ plan,
    planExperimentGc textFormats (failureCache "log") (fun _ => 0) ["cache"] [] 0 = .ok plan ∧
      (applyExperimentGc textFormats (failureCache "changed") plan
          (textFormats.gcPlanSha256 plan)).result.isOk = false ∧
        (failureCache "changed").files.leafAt ["cache", "failures", "first"] = some "log" ∧
          (applyExperimentGc textFormats (failureCache "changed") plan
            (textFormats.gcPlanSha256 plan)).files.find ["cache", "failures", "first"] = none :=
  exists_of_returns (by decide +kernel)

end EmuFlow.ExperimentStore
