import EmuFlow.ValidationArchive.Archive

/-!
# What a cleanup loses

A cleanup compares the records of the manifest with the files of the run and removes the whole run.
A file without a record goes with it.
-/

namespace EmuFlow.ValidationArchive

open Check

variable {α : Type} {F : Formats α} {tree : FileTree α} {archiveDir flowRoot : Path}

theorem sourceFile_eq_ok {relative path : Path} (h : sourceFile tree flowRoot relative = .ok path) :
    tree.resolve (flowRoot ++ relative) = .ok path ∧ flowRoot <+: path ∧
      ∃ c, tree.content path = some c := by
  unfold sourceFile at h
  obtain ⟨symlink, -, h⟩ := bind_eq_ok.mp h
  obtain ⟨-, h⟩ := raiseIf_bind.mp h
  obtain ⟨resolved, hr, h⟩ := bind_eq_ok.mp h
  simp only [raiseIf_bind] at h
  obtain ⟨hb, hf, h⟩ := h
  obtain rfl := Except.ok.inj h
  refine ⟨hr, not_not.mp hb, ?_⟩
  cases hc : tree.content resolved with
  | none => simp [hc] at hf
  | some c => exact ⟨c, rfl⟩

variable {c : α}

theorem readFile_of_content {path : Path} (h : tree.content path = some c) :
    readFile tree path = .ok c := by
  unfold readFile
  rw [FileTree.resolve_eq_self h]
  simp [bind, Except.bind, pure, Except.pure, h]

theorem checkedRelativePath_eq_ok {raw : RawPath} {relative : Path}
    (h : checkedRelativePath raw = .ok relative) : raw.parts = relative ∧ ".." ∉ relative := by
  unfold checkedRelativePath at h
  obtain ⟨hp, h⟩ := raiseIf_bind.mp h
  cases h
  exact ⟨rfl, fun hm => hp (.inr (.inr hm))⟩

def copyPath (tree : FileTree α) (archiveDir : Path) (record : FileRecord) : Option Path :=
  match record.archivePath with
  | none => none
  | some raw => (sourceFile tree archiveDir raw.parts).toOption

variable {record : FileRecord}

theorem copyPath_eq_some {copy : Path} (h : copyPath tree archiveDir record = some copy) :
    ∃ raw, record.archivePath = some raw ∧ sourceFile tree archiveDir raw.parts = .ok copy := by
  unfold copyPath at h
  split at h
  · cases h
  · next raw hr =>
    refine ⟨raw, hr, ?_⟩
    cases hs : sourceFile tree archiveDir raw.parts with
    | error e => rw [hs] at h; cases h
    | ok path => rw [hs] at h; exact congrArg Except.ok (Option.some.inj h)

theorem validateCopy_eq_ok (h : validateCopy F tree archiveDir record = .ok ()) :
    ∃ copy c, copyPath tree archiveDir record = some copy ∧ archiveDir <+: copy ∧
      tree.content copy = some c ∧ Agrees F record c := by
  unfold validateCopy at h
  split at h
  · cases h
  · next raw hrw =>
    obtain ⟨relative, hr, h⟩ := bind_eq_ok.mp h
    obtain ⟨path, hp, h⟩ := bind_eq_ok.mp h
    obtain ⟨content, hcn, h⟩ := bind_eq_ok.mp h
    obtain ⟨ha, -⟩ := raiseIf_bind.mp h
    obtain ⟨rfl, -⟩ := checkedRelativePath_eq_ok hr
    obtain ⟨-, hb, c, hc⟩ := sourceFile_eq_ok hp
    rw [readFile_of_content hc] at hcn
    obtain rfl := Except.ok.inj hcn
    refine ⟨path, c, ?_, hb, hc, not_not.mp ha⟩
    unfold copyPath
    rw [hrw]
    show (sourceFile tree archiveDir raw.parts).toOption = some path
    rw [hp]
    rfl

theorem validateRecord_eq_ok (hc : record.retention ≠ .hashOnly)
    (h : validateRecord F tree archiveDir record = .ok ()) :
    validateCopy F tree archiveDir record = .ok () := by
  unfold validateRecord at h
  rwa [if_neg hc] at h

theorem checkSource_eq_ok (h : checkSource F tree flowRoot record = .ok ())
    (hc : tree.content (flowRoot ++ record.sourcePath.parts) = some c) :
    Agrees F record c := by
  unfold checkSource at h
  simp only [bind_eq_ok] at h
  obtain ⟨relative, hrl, source, hs, content, hcn, h⟩ := h
  obtain ⟨rfl, -⟩ := checkedRelativePath_eq_ok hrl
  have hsm : source = flowRoot ++ record.sourcePath.parts := by
    have hr := (sourceFile_eq_ok hs).1
    rw [FileTree.resolve_eq_self hc] at hr
    exact (Except.ok.inj hr).symm
  rw [hsm, readFile_of_content hc] at hcn
  cases hcn
  exact not_not.mp (raiseIf_eq_ok.mp h)

/-- What holds when a run is removed. -/
structure Cleared (F : Formats α) (tree : FileTree α) (archiveDir flowRoot : Path)
    (manifest : Manifest) : Prop where
  manifest_read : archiveManifest F tree archiveDir = .ok manifest
  copied : ∀ record ∈ manifest.files, validateCopy F tree archiveDir record = .ok ()
  unchanged : ∀ record ∈ manifest.files, checkSource F tree flowRoot record = .ok ()
  archive_apart : ¬ flowRoot <+: archiveDir
  root_apart : ¬ archiveDir <+: flowRoot

variable {validation : Validated}

theorem validateValidationArchive_eq_ok {manifest : Manifest}
    (h : validateValidationArchive F tree archiveDir = .ok validation)
    (hmn : archiveManifest F tree archiveDir = .ok manifest) :
    ∀ record ∈ manifest.files, validateRecord F tree archiveDir record = .ok () := by
  intro record hr
  unfold validateValidationArchive at h
  rw [hmn] at h
  obtain ⟨m, hm, h⟩ := bind_eq_ok.mp h
  cases hm
  obtain ⟨sealContent, -, h⟩ := bind_eq_ok.mp h
  obtain ⟨cleanupSeal, -, h⟩ := bind_eq_ok.mp h
  simp only [raiseIf_bind] at h
  obtain ⟨-, -, -, h⟩ := h
  obtain ⟨manifestContent, -, h⟩ := bind_eq_ok.mp h
  simp only [raiseIf_bind] at h
  obtain ⟨-, -, -, h⟩ := h
  obtain ⟨seen, hs, -⟩ := bind_eq_ok.mp h
  obtain ⟨before, after, ht⟩ := exists_step_of_foldlM hs hr
  unfold recordTurn at ht
  obtain ⟨fields, -, ht⟩ := bind_eq_ok.mp ht
  obtain ⟨-, ht⟩ := raiseIf_bind.mp ht
  obtain ⟨valid, hv, -⟩ := bind_eq_ok.mp ht
  exact hv

variable {home : Path}

theorem cleared_of_checkCleanup
    (h : checkCleanup F home tree archiveDir flowRoot = .ok validation) :
    ∃ manifest, Cleared F tree archiveDir flowRoot manifest := by
  unfold checkCleanup at h
  obtain ⟨v, hvl, h⟩ := bind_eq_ok.mp h
  obtain ⟨manifest, hm, h⟩ := bind_eq_ok.mp h
  simp only [raiseIf_bind] at h
  obtain ⟨hc, -, -, hn, -, h⟩ := h
  obtain ⟨reportContent, -, h⟩ := bind_eq_ok.mp h
  obtain ⟨report, -, h⟩ := bind_eq_ok.mp h
  obtain ⟨summary, -, h⟩ := bind_eq_ok.mp h
  obtain ⟨checked, hs, -⟩ := bind_eq_ok.mp h
  have hv := validateValidationArchive_eq_ok hvl hm
  exact ⟨manifest, hm,
    fun record hr => validateRecord_eq_ok (fun hh => hc ⟨record, hr, hh⟩)
      (hv record hr),
    forM_eq_ok.mp hs, fun hb => hn (.inl hb),
    fun ha => hn (.inr ha)⟩

/-! ## what is stored -/

/-- The file at the path of the run is stored in the archive that was validated: its record leads to
a copy with the content, which is there afterwards. -/
def Stored (F : Formats α) (tree : FileTree α) (archiveDir relative : Path) (c : α)
    (after : FileTree α) : Prop :=
  ∃ manifest, archiveManifest F tree archiveDir = .ok manifest ∧
    ∃ record ∈ manifest.files, record.sourcePath.parts = relative ∧
      ∃ copy, copyPath tree archiveDir record = some copy ∧ after.content copy = some c

def receiptOf (F : Formats α) (flowRoot : Path) (validation : Validated) : α :=
  F.receipt { sourceFlowRoot := flowRoot, archiveManifestSha256 := validation.manifestSha256 }

def Recorded (F : Formats α) (tree : FileTree α) (archiveDir relative : Path) (c receipt : α) :
    Prop :=
  ∃ manifest, archiveManifest F tree archiveDir = .ok manifest ∧
    ∃ record ∈ manifest.files, record.sourcePath.parts = relative ∧
      (copyPath tree archiveDir record = some (archiveDir ++ ["cleanup-receipt.json"]) →
        c = receipt)

def NoCollision (F : Formats α) (tree : FileTree α) : Prop :=
  ∀ p q c c', tree.content p = some c → tree.content q = some c' → F.size c = F.size c' →
    F.sha256 c = F.sha256 c' → c = c'

theorem content_removeTree {path : Path} (h : ¬ flowRoot <+: path) :
    (tree.removeTree flowRoot).content path = tree.content path := by
  unfold FileTree.content FileTree.removeTree
  rw [FileTree.find_keep _ (by simpa using h)]

theorem cleanup_fst (h : checkCleanup F home tree archiveDir flowRoot = .ok validation) :
    (cleanupValidationSource F home tree archiveDir flowRoot).1 =
      ((tree.removeTree flowRoot).write (archiveDir ++ ["cleanup-receipt.json"])
        (.file (receiptOf F flowRoot validation))).getD (tree.removeTree flowRoot) := by
  unfold cleanupValidationSource writeFile receiptOf
  rw [h]
  cases hw : (tree.removeTree flowRoot).write (archiveDir ++ ["cleanup-receipt.json"])
    (.file (F.receipt
      { sourceFlowRoot := flowRoot, archiveManifestSha256 := validation.manifestSha256 })) with
  | none => simp only [hw, Option.getD_none]
  | some after => simp only [hw, Option.getD_some]

theorem content_cleanup {copy : Path}
    (h : checkCleanup F home tree archiveDir flowRoot = .ok validation)
    (hc : tree.content copy = some c) (hrt : ¬ flowRoot <+: copy) :
    (cleanupValidationSource F home tree archiveDir flowRoot).1.content copy =
      some (if copy = archiveDir ++ ["cleanup-receipt.json"] then receiptOf F flowRoot validation
        else c) := by
  rw [cleanup_fst h]
  have hrm : (tree.removeTree flowRoot).content copy = some c := by
    rw [content_removeTree hrt, hc]
  by_cases hr : copy = archiveDir ++ ["cleanup-receipt.json"]
  · -- the receipt replaces the file
    rw [if_pos hr, ← hr]
    obtain ⟨after, ha⟩ := FileTree.exists_write_of_content hrm
      (.file (receiptOf F flowRoot validation))
    rw [ha]
    exact FileTree.content_eq_some.mpr (FileTree.find_write_self ha)
  · rw [if_neg hr]
    cases hw : (tree.removeTree flowRoot).write (archiveDir ++ ["cleanup-receipt.json"])
        (.file (receiptOf F flowRoot validation)) with
    | none => exact hrm
    | some after =>
      show after.content copy = some c
      rw [FileTree.content_write_of_ne hw hr, hrm]

theorem content_copy {manifest : Manifest} (hcl : Cleared F tree archiveDir flowRoot manifest)
    (hcs : NoCollision F tree) (hr : record ∈ manifest.files)
    (hc : tree.content (flowRoot ++ record.sourcePath.parts) = some c) :
    ∃ copy, copyPath tree archiveDir record = some copy ∧ ¬ flowRoot <+: copy ∧
      tree.content copy = some c := by
  obtain ⟨copy, content, hcp, hb, hcn, ha⟩ :=
    validateCopy_eq_ok (hcl.copied record hr)
  have hs := checkSource_eq_ok (hcl.unchanged record hr) hc
  have hsm : content = c := by
    refine hcs _ _ _ _ hcn hc ?_ (ha.2.trans hs.2.symm)
    exact_mod_cast ha.1.trans hs.1.symm
  refine ⟨copy, hcp, fun hrt => ?_, hsm ▸ hcn⟩
  -- the two roots would be one below the other
  rcases List.prefix_or_prefix_of_prefix hb hrt with hn | hn
  · exact hcl.root_apart hn
  · exact hcl.archive_apart hn

/-- **A file of the run stays stored exactly if the receipt records it.** -/
theorem stored_iff_recorded (h : checkCleanup F home tree archiveDir flowRoot = .ok validation)
    (hcs : NoCollision F tree) {relative : Path}
    (hc : tree.content (flowRoot ++ relative) = some c) :
    Stored F tree archiveDir relative c
        (cleanupValidationSource F home tree archiveDir flowRoot).1 ↔
      Recorded F tree archiveDir relative c (receiptOf F flowRoot validation) := by
  obtain ⟨manifest, hcl⟩ := cleared_of_checkCleanup h
  constructor
  · rintro ⟨m, hm, record, hr, rfl, copy, hcp, ha⟩
    obtain rfl := Except.ok.inj (hm.symm.trans hcl.manifest_read)
    refine ⟨m, hm, record, hr, rfl, fun hrc => ?_⟩
    obtain ⟨copy', hcp', hrt, hcn⟩ := content_copy hcl hcs hr hc
    obtain rfl := Option.some.inj (hcp.symm.trans hcp')
    rw [content_cleanup h hcn hrt, Option.some.injEq,
      if_pos (Option.some.inj (hcp.symm.trans hrc))] at ha
    exact ha.symm
  · rintro ⟨m, hm, record, hr, rfl, hrc⟩
    obtain rfl := Except.ok.inj (hm.symm.trans hcl.manifest_read)
    obtain ⟨copy, hcp, hrt, hcn⟩ := content_copy hcl hcs hr hc
    refine ⟨m, hm, record, hr, rfl, copy, hcp, ?_⟩
    rw [content_cleanup h hcn hrt]
    split
    · next hp => rw [hrc (hcp.trans (congrArg some hp))]
    · rfl

end EmuFlow.ValidationArchive
