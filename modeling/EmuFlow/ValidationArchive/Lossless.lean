import EmuFlow.ValidationArchive.Cleanup

/-!
# Cleanups after changes of a run

Between archiving and cleanup files come, change and go. What was archived is checked again; what
came after archiving is removed unseen.
-/

namespace EmuFlow.ValidationArchive

open Check SortedSet GuardedRuns List FileTree

variable {α : Type} {F : Formats α} {tree : FileTree α} {archiveDir flowRoot : Path}

/-! ## changes -/

inductive Edit (α : Type) where
  | write (path : Path) (entry : Entry α)
  | remove (path : Path)

def edit (tree : FileTree α) : Edit α → Option (FileTree α)
  | .write path entry => tree.write path entry
  | .remove path => some (tree.keep fun p => p ≠ path)

def Manifest.recorded (manifest : Manifest) : List Path :=
  manifest.files.map fun record => record.sourcePath.parts

def Harmless (manifest : Manifest) (archiveDir flowRoot : Path) (_ : FileTree α) : Edit α → Prop
  | .write path (.file _) => path ≠ archiveDir ++ ["archive-manifest.json"] ∧
      (flowRoot <+: path → path.drop flowRoot.length ∈ manifest.recorded)
  | .write path (.link _) => ¬ archiveDir <+: path
  | .remove path => path ≠ archiveDir ++ ["archive-manifest.json"]

instance (manifest : Manifest) (archiveDir flowRoot : Path) (tree : FileTree α) (change : Edit α) :
    Decidable (Harmless manifest archiveDir flowRoot tree change) := by
  unfold Harmless
  split <;> infer_instance

/-- The archive of a run whose files all have records. -/
structure Kept (F : Formats α) (manifest : Manifest) (archiveDir flowRoot : Path)
    (tree : FileTree α) : Prop where
  manifest_kept :
    tree.content (archiveDir ++ ["archive-manifest.json"]) = some (F.manifest manifest)
  no_links : ∀ p target, archiveDir <+: p → tree.find p ≠ some (.link target)
  recorded : ∀ p c, tree.content p = some c → flowRoot <+: p →
    p.drop flowRoot.length ∈ manifest.recorded

variable {c : α} {path : Path} {tree' : FileTree α}

theorem content_write_self
    (h : tree.write path (.file c) = some tree') : tree'.content path = some c :=
  content_eq_some.mpr (find_write_self h)

theorem content_keep {p : Path → Bool} (hp : p path = true) :
    (tree.keep p).content path = tree.content path := by
  unfold content
  rw [find_keep p hp]

theorem mem_of_find_keep {p : Path → Bool} {entry : Entry α}
    (h : (tree.keep p).find path = some entry) : tree.find path = some entry :=
  find_eq_some.mpr (mem_filter.mp (find_eq_some.mp h)).1

variable {manifest : Manifest}

theorem Kept.edit (h : Kept F manifest archiveDir flowRoot tree)
    {change : Edit α} (hh : Harmless manifest archiveDir flowRoot tree change)
    (he : ValidationArchive.edit tree change = some tree') :
    Kept F manifest archiveDir flowRoot tree' := by
  cases change with
  | write path entry =>
    have hw : tree.write path entry = some tree' := he
    cases entry with
    | file content =>
      obtain ⟨hm, hr⟩ := hh
      refine ⟨?_, fun p target hp => ?_, fun p c hc hp => ?_⟩
      · rw [content_write_of_ne hw hm.symm]
        exact h.manifest_kept
      · by_cases hpt : p = path
        · rw [hpt, find_write_self hw]
          intro hl
          cases hl
        · rw [find_write_of_ne hw hpt]
          exact h.no_links p target hp
      · by_cases hpt : p = path
        · rw [hpt] at hp ⊢
          exact hr hp
        · rw [content_write_of_ne hw hpt] at hc
          exact h.recorded p c hc hp
    | link target =>
      have ho : ∀ p, archiveDir <+: p → p ≠ path := by
        rintro p hp rfl
        exact hh hp
      refine ⟨?_, fun p target hp => ?_, fun p c hc hp => ?_⟩
      · rw [content_write_of_ne hw (ho _ (prefix_append _ _))]
        exact h.manifest_kept
      · rw [find_write_of_ne hw (ho p hp)]
        exact h.no_links p target hp
      · by_cases hpt : p = path
        · rw [hpt, content_eq_some, find_write_self hw] at hc
          cases hc
        · rw [content_write_of_ne hw hpt] at hc
          exact h.recorded p c hc hp
  | remove path =>
    obtain rfl : tree.keep (fun p => p ≠ path) = tree' := Option.some.inj he
    refine ⟨?_, fun p target hp hl => ?_, fun p c hc hp => ?_⟩
    · rw [content_keep (by simpa using Ne.symm hh)]
      exact h.manifest_kept
    · exact h.no_links p target hp (mem_of_find_keep hl)
    · exact h.recorded p c (content_eq_some.mpr
        (mem_of_find_keep (content_eq_some.mp hc))) hp

/-! ## a new archive -/

theorem writeFile_eq_ok :
    writeFile tree path c = .ok tree' ↔ tree.write path (.file c) = some tree' := by
  unfold writeFile
  cases tree.write path (.file c) with
  | none => simp
  | some t => simp

/-- The files of the run are as they were, and the archive has no links. -/
structure Staged (before : FileTree α) (archiveDir flowRoot : Path) (tree : FileTree α) : Prop where
  no_links : ∀ p target, archiveDir <+: p → tree.find p ≠ some (.link target)
  run_same : ∀ p, flowRoot <+: p → tree.find p = before.find p

theorem Staged.write {before : FileTree α} (h : Staged before archiveDir flowRoot tree)
    (hn : ¬ (flowRoot <+: archiveDir ∨ archiveDir <+: flowRoot)) {rest : Path}
    (hw : writeFile tree (archiveDir ++ rest) c = .ok tree') :
    Staged before archiveDir flowRoot tree' := by
  have hw := writeFile_eq_ok.mp hw
  refine ⟨fun p target hp => ?_, fun p hp => ?_⟩
  · by_cases hpt : p = archiveDir ++ rest
    · rw [hpt, find_write_self hw]
      intro hl
      cases hl
    · rw [find_write_of_ne hw hpt]
      exact h.no_links p target hp
  · have hpt : p ≠ archiveDir ++ rest := by
      rintro rfl
      exact hn ( prefix_or_prefix_of_prefix hp (prefix_append _ _))
    rw [find_write_of_ne hw hpt]
    exact h.run_same p hp

variable {entry : FileRecord × α}

theorem Staged.copyTurn {before : FileTree α} (h : Staged before archiveDir flowRoot tree)
    (hn : ¬ (flowRoot <+: archiveDir ∨ archiveDir <+: flowRoot))
    (ht : ValidationArchive.copyTurn archiveDir tree entry = .ok tree') :
    Staged before archiveDir flowRoot tree' := by
  unfold ValidationArchive.copyTurn at ht
  split at ht
  · rwa [← Except.ok.inj ht]
  · exact h.write hn ht

variable {maxCopyBytes : Int}

theorem makeRecord_eq_ok {reported : Reported}
    {candidates : List (Path × String)} {relative : Path}
    (h : makeRecord F tree flowRoot maxCopyBytes reported candidates relative = .ok entry) :
    entry.1.sourcePath.parts = relative ∧
      ∀ raw, entry.1.archivePath = some raw → raw.parts = "files" :: relative := by
  unfold makeRecord at h
  obtain ⟨source, -, h⟩ := bind_eq_ok.mp h
  obtain ⟨content, -, h⟩ := bind_eq_ok.mp h
  obtain ⟨-, h⟩ := raiseIf_bind.mp h
  cases h
  refine ⟨rfl, fun raw hr => ?_⟩
  dsimp only at hr
  split at hr
  · rw [← Option.some.inj hr]
  · cases hr

theorem mem_runFiles (h : tree.content path = some c)
    (hr : flowRoot <+: path) : path.drop flowRoot.length ∈ runFiles tree flowRoot := by
  unfold runFiles
  rw [mem_filterMap]
  refine ⟨_, find_eq_some.mp (content_eq_some.mp h), ?_⟩
  exact if_pos hr

theorem mem_candidateFiles (h : tree.content path = some c)
    (hr : flowRoot <+: path) (reported : List (Path × String)) :
    path.drop flowRoot.length ∈ (candidateFiles tree flowRoot reported).map Prod.fst := by
  unfold candidateFiles
  rw [map_append, map_map]
  refine mem_append_right _ ?_
  rw [mem_map]
  exact ⟨_, mem_runFiles h hr, rfl⟩

/-- The copies of a manifest are below `files`. -/
def CopiesBelow (manifest : Manifest) : Prop :=
  ∀ record ∈ manifest.files, ∀ raw, record.archivePath = some raw →
    ∃ relative, raw.parts = "files" :: relative

theorem kept_of_stageArchive {runId : String}
    (h : stageArchive F tree flowRoot archiveDir runId maxCopyBytes = .ok tree') :
    ∃ manifest, CopiesBelow manifest ∧ Kept F manifest archiveDir flowRoot tree' := by
  unfold stageArchive at h
  simp only [raiseIf_bind] at h
  obtain ⟨-, -, -, hns, hnw, h⟩ := h
  obtain ⟨reportContent, -, h⟩ := bind_eq_ok.mp h
  obtain ⟨report, -, h⟩ := bind_eq_ok.mp h
  obtain ⟨summary, -, h⟩ := bind_eq_ok.mp h
  obtain ⟨reported, -, h⟩ := bind_eq_ok.mp h
  obtain ⟨records, hrc, h⟩ := bind_eq_ok.mp h
  obtain ⟨copied, hcp, h⟩ := bind_eq_ok.mp h
  obtain ⟨checked, -, h⟩ := bind_eq_ok.mp h
  obtain ⟨withManifest, hmn, hse⟩ := bind_eq_ok.mp h
  have hsr : Staged tree archiveDir flowRoot tree := by
    refine ⟨fun p target hp hln => hnw ?_, fun _ _ => rfl⟩
    -- nothing is at the archive's path yet
    by_cases hsm : p = archiveDir
    · right
      rw [← hsm, hln]
      rfl
    · left
      exact ⟨_, FileTree.find_eq_some.mp hln, hp, fun heq => hsm heq.symm⟩
  have hst : Staged tree archiveDir flowRoot copied :=
    foldlM_invariant (Staged tree archiveDir flowRoot)
      (fun _ _ _ _ ht htr => ht.copyTurn hns htr) hsr hcp
  have hsl := (hst.write hns hmn).write hns hse
  obtain ⟨manifest, hfl, hmn⟩ : ∃ manifest : Manifest,
      manifest.files = records.map Prod.fst ∧
        writeFile copied (archiveDir ++ ["archive-manifest.json"]) (F.manifest manifest) =
          .ok withManifest := ⟨_, rfl, hmn⟩
  refine ⟨manifest, fun r hrr raw hrw => ?_, ?_, hsl.no_links, fun p c hc hp => ?_⟩
  · rw [hfl] at hrr
    obtain ⟨entry, hen, rfl⟩ := mem_map.mp hrr
    obtain ⟨relative, -, hmk⟩ := exists_of_mem_mapM hrc hen
    exact ⟨relative, (makeRecord_eq_ok hmk).2 raw hrw⟩
  · -- the seal is another file
    have hne : archiveDir ++ ["archive-manifest.json"] ≠ archiveDir ++ ["cleanup-seal.json"] := by
      simp
    rw [FileTree.content_write_of_ne (writeFile_eq_ok.mp hse) hne]
    exact content_write_self (writeFile_eq_ok.mp hmn)
  · have hbf : tree.content p = some c := by
      rw [FileTree.content_eq_some, ← hsl.run_same p hp]
      exact FileTree.content_eq_some.mp hc
    have hcn := mem_candidateFiles hbf hp reported.internal
    obtain ⟨entry, hen, hmk⟩ := mem_mapM_of_mem hrc
      (mem_sortedBy.mpr (mem_dedup.mpr hcn))
    unfold Manifest.recorded
    rw [hfl, map_map]
    exact mem_map.mpr ⟨entry, hen, (makeRecord_eq_ok hmk).1⟩

variable {validation : Validated}

theorem kept_of_create {root dir : Path} {runId : String}
    (h : createValidationArchive F tree root dir runId maxCopyBytes = (tree', .ok validation))
    (hr : tree.resolve root = .ok flowRoot) (hd : tree.resolve dir = .ok archiveDir) :
    ∃ manifest, CopiesBelow manifest ∧ Kept F manifest archiveDir flowRoot tree' := by
  unfold createValidationArchive at h
  rw [hr, hd] at h
  cases hs : stageArchive F tree flowRoot archiveDir runId maxCopyBytes with
  | error e =>
    simp [hs, bind, Except.bind] at h
  | ok staged =>
    simp [hs, bind, Except.bind, pure, Except.pure] at h
    exact h.1 ▸ kept_of_stageArchive hs

theorem Kept.archiveManifest (h : Kept F manifest archiveDir flowRoot tree) :
    archiveManifest F tree archiveDir = .ok manifest := by
  unfold ValidationArchive.archiveManifest
  rw [readFile_of_content h.manifest_kept]
  exact F.readManifest_manifest manifest

theorem normal_of_validateCopy {record : FileRecord}
    (h : validateCopy F tree archiveDir record = .ok ()) {raw : RawPath}
    (hrw : record.archivePath = some raw) : ".." ∉ raw.parts := by
  unfold validateCopy at h
  rw [hrw] at h
  obtain ⟨relative, hr, -⟩ := bind_eq_ok.mp h
  obtain ⟨rfl, hd⟩ := checkedRelativePath_eq_ok hr
  exact hd

theorem Kept.copyPath (h : Kept F manifest archiveDir flowRoot tree)
    {record : FileRecord} (hv : validateCopy F tree archiveDir record = .ok ()) {copy : Path}
    (hc : copyPath tree archiveDir record = some copy) :
    ∃ raw, record.archivePath = some raw ∧ copy = archiveDir ++ raw.parts := by
  obtain ⟨raw, hrw, hs⟩ := copyPath_eq_some hc
  refine ⟨raw, hrw, ?_⟩
  have hr := (sourceFile_eq_ok hs).1
  rw [resolve_of_no_links] at hr
  · exact (Except.ok.inj hr).symm
  · have ha := tree.normal _
      (find_eq_some.mp (content_eq_some.mp h.manifest_kept))
    intro hm
    rcases List.mem_append.mp hm with hm | hm
    · exact ha (mem_append_left _ hm)
    · exact normal_of_validateCopy hv hrw hm
  · intro pre hp target
    rcases prefix_or_prefix_of_prefix hp (prefix_append archiveDir raw.parts) with hab | hb
    · -- the manifest is below the way to the archive
      exact find_ne_link_of_prefix h.manifest_kept
        (hab.trans (prefix_append _ _)) target
    · exact h.no_links pre target hb

theorem Kept.recorded_file (h : Kept F manifest archiveDir flowRoot tree)
    (hb : CopiesBelow manifest) {ho : Path}
    (hcn : checkCleanup F ho tree archiveDir flowRoot = .ok validation) {relative : Path}
    (hc : tree.content (flowRoot ++ relative) = some c) :
    Recorded F tree archiveDir relative c (receiptOf F flowRoot validation) := by
  obtain ⟨m, hcl⟩ := cleared_of_checkCleanup hcn
  obtain rfl := Except.ok.inj (h.archiveManifest.symm.trans hcl.manifest_read)
  have hrc := h.recorded _ c hc (prefix_append _ _)
  rw [drop_left] at hrc
  obtain ⟨r, hr, hp⟩ := mem_map.mp hrc
  refine ⟨manifest, h.archiveManifest, r, hr, hp, fun hrp => ?_⟩
  obtain ⟨raw, hrw, hcp⟩ := h.copyPath (hcl.copied r hr) hrp
  obtain ⟨rest, hrs⟩ := hb r hr raw hrw
  rw [hrs, append_cancel_left_eq] at hcp
  exact absurd (List.cons.inj hcp).1 (by decide)

/-- **When a cleanup loses nothing.** Whatever changed before it, a cleanup stores every file of the
run exactly if every file has a record whose copy the receipt does not replace. From a new archive
on this is so as long as the archive keeps its manifest and gets no link, and the run gets no file
without a record. -/
theorem cleanup_stores (F : Formats α) :
    (∀ (home : Path) (tree : FileTree α) (archiveDir flowRoot : Path) (validation : Validated),
      checkCleanup F home tree archiveDir flowRoot = .ok validation → NoCollision F tree →
      ((∀ relative c, tree.content (flowRoot ++ relative) = some c →
          Stored F tree archiveDir relative c
            (cleanupValidationSource F home tree archiveDir flowRoot).1) ↔
        ∀ relative c, tree.content (flowRoot ++ relative) = some c →
          Recorded F tree archiveDir relative c (receiptOf F flowRoot validation))) ∧
    ∀ (before : FileTree α) (root dir : Path) (runId : String) (maxCopyBytes : Int)
      (archived : FileTree α) (created : Validated) (flowRoot archiveDir : Path),
      before.resolve root = .ok flowRoot → before.resolve dir = .ok archiveDir →
      createValidationArchive F before root dir runId maxCopyBytes = (archived, .ok created) →
      ∃ manifest, archiveManifest F archived archiveDir = .ok manifest ∧
        ∀ (home : Path) (tree : FileTree α) (validation : Validated),
          Run edit (Harmless manifest archiveDir flowRoot) archived tree →
          checkCleanup F home tree archiveDir flowRoot = .ok validation → NoCollision F tree →
          ∀ relative c, tree.content (flowRoot ++ relative) = some c →
            Stored F tree archiveDir relative c
              (cleanupValidationSource F home tree archiveDir flowRoot).1 := by
  constructor
  · intro home tree archiveDir flowRoot validation hcleanup hcollision
    exact forall_congr' fun relative => forall_congr' fun c => forall_congr' fun hc =>
      stored_iff_recorded hcleanup hcollision hc
  · intro before root dir runId maxCopyBytes archived created flowRoot archiveDir hroot hdir hcreate
    obtain ⟨manifest, hbelow, hkept⟩ := kept_of_create hcreate hroot hdir
    refine ⟨manifest, hkept.archiveManifest, ?_⟩
    intro home tree validation hrun hcleanup hcollision relative c hc
    have hlast : Kept F manifest archiveDir flowRoot tree :=
      hrun.invariant (fun _ _ _ hk hharmless hstep => hk.edit hharmless hstep) hkept
    exact (stored_iff_recorded hcleanup hcollision hc).mpr (hlast.recorded_file hbelow hcleanup hc)

/-! ## a run of two files -/

/-- Files by what was written to them. -/
inductive Document where
  | bytes (n : ℕ)
  | report (report : Report)
  | manifest (manifest : Manifest)
  | cleanupSeal (cleanupSeal : Seal)
  | receipt (receipt : Receipt)
  deriving DecidableEq

def digestOf (digit : Char) : String := String.ofList (List.replicate 64 digit)

def documents : Formats Document where
  size
    | .bytes n => n
    | _ => 40
  sha256
    | .bytes _ => digestOf '0'
    | .report _ => digestOf '1'
    | .manifest _ => digestOf '2'
    | .cleanupSeal _ => digestOf '3'
    | .receipt _ => digestOf '4'
  manifest := .manifest
  readManifest
    | .manifest m => .ok m
    | _ => .error (ValidationError "expected a manifest")
  cleanupSeal := .cleanupSeal
  readCleanupSeal
    | .cleanupSeal s => .ok s
    | _ => .error (ValidationError "expected a seal")
  receipt := .receipt
  readReport
    | .report r => .ok r
    | _ => .error (ValidationError "expected a report")
  summary := fun _ => .ok "pass"
  readable := fun _ _ => true
  readManifest_manifest := fun _ => rfl
  readCleanupSeal_cleanupSeal := fun _ => rfl

def twoFiles : FileTree Document where
  entries :=
    [(["runs", "a", reportName], .file (.report { artifacts := [], references := [] })),
      (["runs", "a", "routes.txt"], .file (.bytes 5))]
  nodup := by decide
  leaves := by decide
  normal := by decide

def archivedRun : FileTree Document :=
  (createValidationArchive documents twoFiles ["runs", "a"] ["archives", "a"] "run-1" 100).1

def lateLog : Edit Document := .write ["runs", "a", "late.log"] (.file (.bytes 9))

def lateRun : FileTree Document := (edit archivedRun lateLog).getD archivedRun

/-- The kind of a file: what `NoCollision` looks at. -/
def fingerprint (F : Formats α) : Entry α → Option (ℕ × String)
  | .file c => some (F.size c, F.sha256 c)
  | .link _ => none

theorem noCollision_of_entries
    (h : ∀ e ∈ tree.entries, ∀ e' ∈ tree.entries, fingerprint F e.2 = fingerprint F e'.2 →
      fingerprint F e.2 ≠ none → e.2 = e'.2) : NoCollision F tree := by
  intro p q c c' hc hc' hs hsh
  have hm := find_eq_some.mp (content_eq_some.mp hc)
  have hm' := find_eq_some.mp (content_eq_some.mp hc')
  have hsm := h _ hm _ hm' (by simp [fingerprint, hs, hsh]) (by simp [fingerprint])
  exact Entry.file.inj hsm

theorem content_ne_of_entries (h : ∀ e ∈ tree.entries, e.2 ≠ .file c) (path : Path) :
    tree.content path ≠ some c := by
  intro hc
  exact h _ (find_eq_some.mp (content_eq_some.mp hc)) rfl

theorem not_stored_late : ¬ Stored documents lateRun ["archives", "a"] ["late.log"] (.bytes 9)
    (cleanupValidationSource documents ["home"] lateRun ["archives", "a"] ["runs", "a"]).1 := by
  rintro ⟨manifest, -, record, -, -, copy, -, hc⟩
  exact content_ne_of_entries (by decide +kernel) copy hc

/-- A file that comes to a run after archiving is lost in a cleanup. -/
theorem late_file_lost : ∃ created validation,
      createValidationArchive documents twoFiles ["runs", "a"] ["archives", "a"] "run-1" 100 =
        (archivedRun, .ok created) ∧
      edit archivedRun lateLog = some lateRun ∧
      checkCleanup documents ["home"] lateRun ["archives", "a"] ["runs", "a"] = .ok validation ∧
      lateRun.content (["runs", "a"] ++ ["late.log"]) = some (.bytes 9) ∧
      ¬ Stored documents lateRun ["archives", "a"] ["late.log"] (.bytes 9)
        (cleanupValidationSource documents ["home"] lateRun ["archives", "a"] ["runs", "a"]).1 := by
  obtain ⟨created, hcreated⟩ := exists_of_isOk (show (createValidationArchive documents twoFiles
    ["runs", "a"] ["archives", "a"] "run-1" 100).2.isOk = true by decide +kernel)
  obtain ⟨validation, hvalidation⟩ := exists_of_isOk (show (checkCleanup documents ["home"] lateRun
    ["archives", "a"] ["runs", "a"]).isOk = true by decide +kernel)
  refine ⟨created, validation, Prod.ext rfl hcreated, ?_, hvalidation, by decide +kernel,
    not_stored_late⟩
  have hsome : (edit archivedRun lateLog).isSome = true := by decide +kernel
  obtain ⟨tree, htree⟩ := Option.isSome_iff_exists.mp hsome
  rw [lateRun, htree]
  rfl

def notedRun : FileTree Document :=
  (edit archivedRun (.write ["runs", "notes"] (.file (.bytes 7)))).getD archivedRun

/-- A note next to the run changes nothing for it; the new file has no record. -/
theorem cleanup_stores_run : Stored documents notedRun ["archives", "a"] ["routes.txt"] (.bytes 5)
        (cleanupValidationSource documents ["home"] notedRun ["archives", "a"] ["runs", "a"]).1 ∧
      ∃ validation, ¬ ∀ relative c, lateRun.content (["runs", "a"] ++ relative) = some c →
        Recorded documents lateRun ["archives", "a"] relative c
          (receiptOf documents ["runs", "a"] validation) := by
  constructor
  · obtain ⟨created, hcreated⟩ := exists_of_isOk (show (createValidationArchive documents twoFiles
      ["runs", "a"] ["archives", "a"] "run-1" 100).2.isOk = true by decide +kernel)
    obtain ⟨manifest, hmanifest, hstores⟩ := (cleanup_stores documents).2 twoFiles ["runs", "a"]
      ["archives", "a"] "run-1" 100 archivedRun created ["runs", "a"] ["archives", "a"]
      (by decide +kernel) (by decide +kernel) (Prod.ext rfl hcreated)
    obtain ⟨validation, hvalidation⟩ := exists_of_isOk (show (checkCleanup documents ["home"]
      notedRun ["archives", "a"] ["runs", "a"]).isOk = true by decide +kernel)
    have hedit : edit archivedRun (.write ["runs", "notes"] (.file (.bytes 7))) = some
      notedRun := by
      obtain ⟨tree, htree⟩ := Option.isSome_iff_exists.mp (show (edit archivedRun
        (.write ["runs", "notes"] (.file (.bytes 7)))).isSome = true by decide +kernel)
      rw [notedRun, htree]
      rfl
    have hharmless : Harmless manifest ["archives", "a"] ["runs", "a"] archivedRun
        (.write ["runs", "notes"] (.file (.bytes 7))) :=
      ⟨by decide, fun hbelow => absurd hbelow (by decide)⟩
    exact hstores ["home"] notedRun validation (.snoc .refl hharmless hedit) hvalidation
      (noCollision_of_entries (by decide +kernel)) ["routes.txt"] (.bytes 5) (by decide +kernel)
  · obtain ⟨validation, hvalidation⟩ := exists_of_isOk (show (checkCleanup documents ["home"]
      lateRun ["archives", "a"] ["runs", "a"]).isOk = true by decide +kernel)
    refine ⟨validation, fun hrecorded => not_stored_late ?_⟩
    exact ((cleanup_stores documents).1 ["home"] lateRun ["archives", "a"] ["runs", "a"] validation
      hvalidation (noCollision_of_entries (by decide +kernel))).mpr hrecorded ["late.log"]
      (.bytes 9) (by decide +kernel)

end EmuFlow.ValidationArchive
