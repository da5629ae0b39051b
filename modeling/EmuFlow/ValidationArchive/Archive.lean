import Mathlib.Data.List.Infix
import EmuFlow.Errors
import EmuFlow.Lib.GuardedRuns
import EmuFlow.Lib.Keyed
import EmuFlow.Lib.SortedSet

/-!
# File trees

A file system is a map from paths to regular files and symbolic links. A directory is there as long
as something is in it.
-/

namespace EmuFlow.ValidationArchive

open Check List Option

abbrev Path := List String

inductive Entry (α : Type) where
  | file (content : α)
  | link (target : Path)
  deriving DecidableEq

structure FileTree (α : Type) where
  entries : List (Path × Entry α)
  nodup : (entries.map Prod.fst).Nodup
  /-- Nothing is below a file or a link. -/
  leaves : ∀ e ∈ entries, ∀ e' ∈ entries, e.1 <+: e'.1 → e.1 = e'.1
  normal : ∀ e ∈ entries, ".." ∉ e.1

namespace FileTree

variable {α : Type} (tree : FileTree α)

def find (path : Path) : Option (Entry α) := (Keyed.find Prod.fst tree.entries path).map Prod.snd

/-- `path.is_file()` of a resolved path. -/
def content (path : Path) : Option α :=
  match tree.find path with
  | some (.file content) => some content
  | _ => none

def IsDir (path : Path) : Prop := ∃ e ∈ tree.entries, path <+: e.1 ∧ path ≠ e.1

instance (path : Path) : Decidable (tree.IsDir path) :=
  inferInstanceAs (Decidable (∃ e ∈ tree.entries, _))

/-- The components up to the first link: the path they lead to, or where the link goes on. -/
def walk : Path → List String → Path ⊕ Path
  | done, [] => .inl done
  | done, component :: rest =>
    if component = ".." then walk done.dropLast rest
    else
      match tree.find (done ++ [component]) with
      | some (.link target) => .inr (target ++ rest)
      | _ => walk (done ++ [component]) rest

def resolveLinks : ℕ → Path → Option Path
  | links, path =>
    match tree.walk [] path with
    | .inl done => some done
    | .inr next =>
      match links with
      | 0 => none
      | links + 1 => resolveLinks links next

/-- `path.resolve()`, which follows forty links and then takes them for a loop. -/
def resolve (path : Path) : Result Path :=
  match tree.resolveLinks 40 path with
  | some resolved => .ok resolved
  | none => .error (.raised "RuntimeError" "Symlink loop")

def isSymlink (path : Path) : Result Bool := do
  let parent ← tree.resolve path.dropLast
  match tree.find (parent ++ path.getLast?.toList) with
  | some (.link _) => return true
  | _ => return false

/-- The entry is made or replaced, where nothing is above or below it. -/
def write (path : Path) (entry : Entry α) : Option (FileTree α) :=
  if h : ".." ∉ path ∧ ∀ e ∈ tree.entries, (path <+: e.1 ∨ e.1 <+: path) → e.1 = path then
    some
      { entries := (path, entry) :: tree.entries.filter fun e => e.1 ≠ path
        nodup := by
          rw [map_cons, nodup_cons]
          refine ⟨fun hmem => ?_, ?_⟩
          · obtain ⟨e, he, heq⟩ := mem_map.mp hmem
            exact of_decide_eq_true (mem_filter.mp he).2 heq
          · exact tree.nodup.sublist (filter_sublist.map Prod.fst)
        leaves := by
          intro e he e' he' hprefix
          rcases mem_cons.mp he with rfl | he <;> rcases mem_cons.mp he' with rfl | he'
          · rfl
          · exact (h.2 e' (mem_filter.mp he').1 (.inl hprefix)).symm
          · exact h.2 e (mem_filter.mp he).1 (.inr hprefix)
          · exact tree.leaves e (mem_filter.mp he).1 e' (mem_filter.mp he').1 hprefix
        normal := by
          intro e he
          rcases mem_cons.mp he with rfl | he
          · exact h.1
          · exact tree.normal e (mem_filter.mp he).1 }
  else none

def keep (p : Path → Bool) : FileTree α where
  entries := tree.entries.filter fun e => p e.1
  nodup := tree.nodup.sublist (filter_sublist.map Prod.fst)
  leaves := fun e he e' he' =>
    tree.leaves e (mem_filter.mp he).1 e' (mem_filter.mp he').1
  normal := fun e he => tree.normal e (mem_filter.mp he).1

/-- `shutil.rmtree` -/
def removeTree (root : Path) : FileTree α := tree.keep fun path => ¬ root <+: path

/-! ## lookups -/

variable {tree} {path : Path} {entry : Entry α}

theorem find_eq_some : tree.find path = some entry ↔ (path, entry) ∈ tree.entries := by
  unfold find
  rw [map_eq_some_iff]
  constructor
  · rintro ⟨e, he, rfl⟩
    obtain ⟨hmem, rfl⟩ := (Keyed.find_eq_some tree.nodup).mp he
    exact hmem
  · intro hmem
    exact ⟨_, (Keyed.find_eq_some tree.nodup).mpr ⟨hmem, rfl⟩, rfl⟩

theorem content_eq_some {c : α} : tree.content path = some c ↔ tree.find path = some (.file c) := by
  unfold content
  split
  · next h => rw [h, some.injEq, some.injEq, Entry.file.injEq]
  · next h =>
    constructor
    · intro hc
      cases hc
    · intro hf
      exact absurd hf (h c)

theorem find_keep (p : Path → Bool) (hp : p path = true) :
    (tree.keep p).find path = tree.find path := by
  refine ext fun entry => ?_
  rw [find_eq_some, find_eq_some]
  show (path, entry) ∈ tree.entries.filter _ ↔ _
  rw [mem_filter]
  simp [hp]

section

variable {tree' : FileTree α} (h : tree.write path entry = some tree')
include h

theorem find_write_self : tree'.find path = some entry := by
  unfold write at h
  split at h
  · rw [← some.inj h]
    exact find_eq_some.mpr mem_cons_self
  · cases h

theorem find_write_of_ne
    {other : Path} (hne : other ≠ path) : tree'.find other = tree.find other := by
  unfold write at h
  split at h
  · rw [← some.inj h]
    refine ext fun e => ?_
    rw [find_eq_some, find_eq_some]
    simp [hne]
  · cases h

theorem content_write_of_ne
    {other : Path} (hne : other ≠ path) : tree'.content other = tree.content other := by
  unfold content
  rw [find_write_of_ne h hne]

end

theorem exists_write_of_content {c : α} (h : tree.content path = some c) (entry : Entry α) :
    ∃ tree', tree.write path entry = some tree' := by
  have hmem := find_eq_some.mp (content_eq_some.mp h)
  refine ⟨_, dif_pos ⟨tree.normal _ hmem, fun e he hprefix => ?_⟩⟩
  rcases hprefix with hprefix | hprefix
  · exact (tree.leaves _ hmem _ he hprefix).symm
  · exact tree.leaves _ he _ hmem hprefix

theorem walk_eq_inl : ∀ {rest done : List String}, ".." ∉ rest →
    (∀ pre, pre <+: rest → ∀ target, tree.find (done ++ pre) ≠ some (.link target)) →
    tree.walk done rest = .inl (done ++ rest)
  | [], done, _, _ => by rw [append_nil]; rfl
  | component :: rest, done, hd, hl => by
    rw [mem_cons, not_or] at hd
    rw [walk, if_neg (Ne.symm hd.1)]
    have hn : tree.walk (done ++ [component]) rest = .inl (done ++ component :: rest) := by
      have hr := @walk_eq_inl rest (done ++ [component]) hd.2 fun pre hp target => by
          have := hl (component :: pre) (cons_prefix_cons.mpr ⟨rfl, hp⟩) target
          rwa [append_assoc]
      rwa [append_assoc] at hr
    split
    · next target ht =>
      exact absurd ht (hl [component] (cons_prefix_cons.mpr ⟨rfl, nil_prefix⟩) target)
    · exact hn

/-- Without links a path is what it says. -/
theorem resolve_of_no_links (hd : ".." ∉ path)
    (hl : ∀ pre, pre <+: path → ∀ target, tree.find pre ≠ some (.link target)) :
    tree.resolve path = .ok path := by
  have hw : tree.walk [] path = .inl path :=
    (walk_eq_inl hd fun pre hp => hl pre hp).trans (by simp)
  unfold resolve
  rw [resolveLinks, hw]

theorem find_ne_link_of_prefix {c : α} (h : tree.content path = some c) {pre : Path}
    (hp : pre <+: path) (target : Path) : tree.find pre ≠ some (.link target) := by
  intro hl
  have hmem := find_eq_some.mp (content_eq_some.mp h)
  rw [show pre = path from tree.leaves _ (find_eq_some.mp hl) _ hmem hp,
    content_eq_some.mp h] at hl
  cases hl

theorem resolve_eq_self {c : α} (h : tree.content path = some c) : tree.resolve path = .ok path :=
  resolve_of_no_links (tree.normal _ (find_eq_some.mp (content_eq_some.mp h)))
    fun _ hp => find_ne_link_of_prefix h hp

end FileTree

/-!
## Validation archives

`create_validation_archive`, `validate_validation_archive` and `cleanup_validation_source` of
`emuflow/archive.py`. An archive has the files of a run, a manifest that names them and a seal of
the manifest; a run is removed once its files are checked against the manifest. JSON documents are
typed records, and how they are written as bytes is a parameter with the digest and the readers.
-/

open SortedSet

def VALIDATION_ARCHIVE_SCHEMA : String := "emuflow.validation-archive/v1"

def CLEANUP_SEAL_SCHEMA : String := "emuflow.validation-cleanup-seal/v1"

def CLEANUP_RECEIPT_SCHEMA : String := "emuflow.validation-cleanup-receipt/v1"

/-! ## documents -/

structure RawPath where
  absolute : Bool := false
  parts : List String
  deriving DecidableEq

inductive Retention where
  | copied
  | hashOnly
  | other (text : String)
  deriving DecidableEq

structure FileRecord where
  sourcePath : RawPath
  retention : Retention
  archivePath : Option RawPath
  bytes : Int
  sha256 : String
  roles : List String
  deriving DecidableEq

structure Manifest where
  schema : String := VALIDATION_ARCHIVE_SCHEMA
  status : String := "pass"
  runId : String
  flowRoot : Path
  flowReport : RawPath
  summary : String
  maxCopyBytes : Int
  files : List FileRecord
  deriving DecidableEq

structure Seal where
  schema : String := CLEANUP_SEAL_SCHEMA
  status : String := "sealed"
  sourceFlowRoot : Path
  manifestSha256 : String
  deriving DecidableEq

structure Receipt where
  schema : String := CLEANUP_RECEIPT_SCHEMA
  status : String := "removed"
  sourceFlowRoot : Path
  archiveManifestSha256 : String
  deriving DecidableEq

structure Reference where
  pointer : String
  path : RawPath
  digest : String
  /-- `retained` is not `False`. -/
  retained : Bool
  deriving DecidableEq

structure Report where
  /-- Roles with paths and digests. -/
  artifacts : List (String × RawPath × String)
  references : List Reference
  deriving DecidableEq

/-- Files as bytes. -/
structure Formats (α : Type) where
  size : α → ℕ
  sha256 : α → String
  manifest : Manifest → α
  readManifest : α → Result Manifest
  cleanupSeal : Seal → α
  readCleanupSeal : α → Result Seal
  receipt : Receipt → α
  readReport : α → Result Report
  /-- `validate_multi_fpga_flow_report` -/
  summary : Report → Result String
  /-- `read_json` reads the file. -/
  readable : FileTree α → Path → Bool
  readManifest_manifest : ∀ m, readManifest (manifest m) = .ok m
  readCleanupSeal_cleanupSeal : ∀ s, readCleanupSeal (cleanupSeal s) = .ok s

def posix (path : Path) : String := "/".intercalate path

def checkedRelativePath (path : RawPath) : Result Path := do
  raiseIf (path.absolute = true ∨ path.parts = [] ∨ ".." ∈ path.parts)
    (.validation "archive artifact path must stay below the flow root: %r" [posix path.parts])
  return path.parts

variable {α : Type}

def sourceFile (tree : FileTree α) (flowRoot relative : Path) : Result Path := do
  let symlink ← tree.isSymlink (flowRoot ++ relative)
  raiseIf (symlink = true)
    (.validation "archive refuses symbolic-link artifact: %s" [posix relative])
  let resolved ← tree.resolve (flowRoot ++ relative)
  raiseIf (¬ flowRoot <+: resolved)
    (.validation "archive artifact escapes the flow root: %s" [posix relative])
  raiseIf ((tree.content resolved).isNone = true)
    (.validation "archive artifact is missing: %s" [posix relative])
  return resolved

def readFile (tree : FileTree α) (path : Path) : Result α := do
  let resolved ← tree.resolve path
  match tree.content resolved with
  | some content => return content
  | none => .error (.raised "FileNotFoundError" (posix path))

/-- `path.suffix == ".json"` -/
def isJson (path : Path) : Bool :=
  match path.getLast? with
  | some name => name.endsWith ".json" && name ≠ ".json"
  | none => false

/-! ## validation -/

def reportName : String := "multi-fpga-flow-report.json"

def isHexDigest (digest : String) : Bool :=
  digest.length = 64 && digest.toList.all fun c => ('0' ≤ c && c ≤ '9') || ('a' ≤ c && c ≤ 'f')

def validateFileRecord (record : FileRecord) : Result Unit := do
  raiseIf (record.retention ≠ .copied ∧ record.retention ≠ .hashOnly)
    (ValidationError "archive file retention mode is invalid")
  let _ ← checkedRelativePath record.sourcePath
  raiseIf (record.bytes < 0) (ValidationError "archive file size is invalid")
  raiseIf (isHexDigest record.sha256 = false) (ValidationError "archive file SHA-256 is invalid")

def Agrees (F : Formats α) (record : FileRecord) (content : α) : Prop :=
  (F.size content : Int) = record.bytes ∧ F.sha256 content = record.sha256

instance (F : Formats α) (record : FileRecord) (content : α) :
    Decidable (Agrees F record content) := inferInstanceAs (Decidable (_ ∧ _))

def validateJson (F : Formats α) (tree : FileTree α) (path : Path) : Result Unit :=
  raiseIf (isJson path = true ∧ F.readable tree path = false)
    (.raised "ValueError" (posix path))

def validateCopy (F : Formats α) (tree : FileTree α) (archiveDir : Path) (record : FileRecord) :
    Result Unit := do
  match record.archivePath with
  | none => .error (ValidationError "copied archive file has no archive path")
  | some rawArchivePath => do
    let relative ← checkedRelativePath rawArchivePath
    let path ← sourceFile tree archiveDir relative
    let content ← readFile tree path
    raiseIf (¬ Agrees F record content)
      (.validation "copied archive file failed integrity check: %s" [posix relative])
    validateJson F tree path

def validateRecord (F : Formats α) (tree : FileTree α) (archiveDir : Path) (record : FileRecord) :
    Result Unit :=
  if record.retention = .hashOnly then
    raiseIf (record.archivePath ≠ none)
      (ValidationError "hash-only archive file has a copied path")
  else validateCopy F tree archiveDir record

/-- One turn of the loop over the records; `seen` are the paths before it. -/
def recordTurn (F : Formats α) (tree : FileTree α) (archiveDir : Path) (seen : List RawPath)
    (record : FileRecord) : Result (List RawPath) := do
  validateFileRecord record
  raiseIf (record.sourcePath ∈ seen)
    (.validation "duplicate archive file record: %s" [posix record.sourcePath.parts])
  validateRecord F tree archiveDir record
  return seen ++ [record.sourcePath]

structure Validated where
  runId : String
  copiedFiles : ℕ
  hashOnlyFiles : ℕ
  flow : String
  manifestSha256 : String

def validateReport (F : Formats α) (tree : FileTree α) (archiveDir : Path) (manifest : Manifest) :
    Result String := do
  match (manifest.files.filter fun record => record.sourcePath = manifest.flowReport).getLast? with
  | none => .error (ValidationError "archive must retain the complete flow report")
  | some record => do
    raiseIf (record.retention ≠ .copied)
      (ValidationError "archive must retain the complete flow report")
    let content ← readFile tree (archiveDir ++ (record.archivePath.map RawPath.parts).getD [])
    let report ← F.readReport content
    let summary ← F.summary report
    raiseIf (summary ≠ manifest.summary)
      (ValidationError "archived flow summary disagrees with manifest")
    return summary

/-- `archive-manifest.json` of an archive. -/
def archiveManifest (F : Formats α) (tree : FileTree α) (archiveDir : Path) : Result Manifest := do
  let content ← readFile tree (archiveDir ++ ["archive-manifest.json"])
  F.readManifest content

/-- `validate_validation_archive`, of a resolved directory. -/
def validateValidationArchive (F : Formats α) (tree : FileTree α) (archiveDir : Path) :
    Result Validated := do
  let manifest ← archiveManifest F tree archiveDir
  let sealContent ← readFile tree (archiveDir ++ ["cleanup-seal.json"])
  let cleanupSeal ← F.readCleanupSeal sealContent
  raiseIf (manifest.schema ≠ VALIDATION_ARCHIVE_SCHEMA)
    (ValidationError "validation archive schema is invalid")
  raiseIf (manifest.status ≠ "pass") (ValidationError "validation archive did not pass")
  raiseIf (cleanupSeal.schema ≠ CLEANUP_SEAL_SCHEMA)
    (ValidationError "validation archive cleanup seal is invalid")
  let manifestContent ← readFile tree (archiveDir ++ ["archive-manifest.json"])
  raiseIf (cleanupSeal.manifestSha256 ≠ F.sha256 manifestContent)
    (ValidationError "validation archive manifest seal is broken")
  raiseIf (cleanupSeal.sourceFlowRoot ≠ manifest.flowRoot)
    (ValidationError "validation archive source-root seal is broken")
  raiseIf (manifest.files = []) (ValidationError "validation archive has no file records")
  let _ ← manifest.files.foldlM (recordTurn F tree archiveDir) []
  let summary ← validateReport F tree archiveDir manifest
  return {
    runId := manifest.runId
    copiedFiles := (manifest.files.filter fun record => record.retention ≠ .hashOnly).length
    hashOnlyFiles := (manifest.files.filter fun record => record.retention = .hashOnly).length
    flow := summary
    manifestSha256 := cleanupSeal.manifestSha256 }

/-! ## creation -/

/-- The paths of the report below the flow root, with their roles and digests. -/
structure Reported where
  internal : List (Path × String) := []
  expected : List (Path × String) := []

def declaredTurn (reported : Reported) (artifact : String × RawPath × String) : Result Reported :=
    do
  let relative ← checkedRelativePath artifact.2.1
  return {
    internal := reported.internal ++ [(relative, artifact.1)]
    expected := reported.expected ++ [(relative, artifact.2.2)] }

def checkExternal (F : Formats α) (tree : FileTree α) (resolved : Path) (digest : String) :
    Result Unit :=
  match tree.content resolved with
  | none => .ok ()
  | some content =>
    raiseIf (F.sha256 content ≠ digest)
      (.validation "external artifact SHA-256 disagrees with flow report: %s" [posix resolved])

/-- `visit`, at a dictionary with a path and a digest. -/
def visitTurn (F : Formats α) (tree : FileTree α) (flowRoot : Path) (reported : Reported)
    (reference : Reference) : Result Reported := do
  let resolved ← tree.resolve
    (if reference.path.absolute then reference.path.parts else flowRoot ++ reference.path.parts)
  if flowRoot <+: resolved then
    let relative := resolved.drop flowRoot.length
    if reference.retained then
      return {
        internal := reported.internal ++ [(relative, "reported:" ++ reference.pointer)]
        expected := reported.expected ++ [(relative, reference.digest)] }
    else return reported
  else do
    checkExternal F tree resolved reference.digest
    return reported

def reportedArtifacts (F : Formats α) (tree : FileTree α) (report : Report) (flowRoot : Path) :
    Result Reported := do
  let declared ← report.artifacts.foldlM declaredTurn {}
  report.references.foldlM (visitTurn F tree flowRoot) declared

def reportTokens : List String :=
  ["report", "summary", "manifest", "contract", "validation", "constraints", "timing", "weights"]

def importantNames : List String :=
  ["assignment.json", "routes.json", "schedule.json", "ratio_plan.json", "platform.normalized.json",
    "synthesized.json", "synthesized.json.gz"]

def isReportLike (path : Path) : Bool :=
  isJson path &&
    let name := (path.getLast?.getD "").toLower
    name ∈ importantNames || name.endsWith ".normalized.json" ||
      reportTokens.any fun token => name.toList.tails.any token.toList.isPrefixOf

/-- `flow_root.rglob("*")` without links and directories, below the root. -/
def runFiles (tree : FileTree α) (flowRoot : Path) : List Path :=
  tree.entries.filterMap fun e =>
    match e.2 with
    | .file _ => if flowRoot <+: e.1 then some (e.1.drop flowRoot.length) else none
    | .link _ => none

/-- `_candidate_files`, the paths with their roles. -/
def candidateFiles (tree : FileTree α) (flowRoot : Path) (reported : List (Path × String)) :
    List (Path × String) :=
  reported ++ [([reportName], "flow_report")] ++ (runFiles tree flowRoot).map fun path =>
    (path, if isReportLike path then "discovered_record" else "unclassified-run-artifact")

def makeRecord (F : Formats α) (tree : FileTree α) (flowRoot : Path) (maxCopyBytes : Int)
    (reported : Reported) (candidates : List (Path × String)) (relative : Path) :
    Result (FileRecord × α) := do
  let source ← sourceFile tree flowRoot relative
  let content ← readFile tree source
  raiseIf (∃ entry ∈ reported.expected, entry.1 = relative ∧ entry.2 ≠ F.sha256 content)
    (.validation "artifact SHA-256 disagrees with flow report: %s" [posix relative])
  let retained : Bool := decide (relative = [reportName] ∨ (F.size content : Int) ≤ maxCopyBytes)
  return ({
    sourcePath := { parts := relative }
    retention := if retained then .copied else .hashOnly
    archivePath := if retained then some { parts := "files" :: relative } else none
    bytes := F.size content
    sha256 := F.sha256 content
    roles := sortedSet ((candidates.filter fun entry => entry.1 = relative).map Prod.snd) },
      content)

def writeFile (tree : FileTree α) (path : Path) (content : α) : Result (FileTree α) :=
  match tree.write path (.file content) with
  | some tree => .ok tree
  | none => .error (.raised "OSError" (posix path))

def copyTurn (archiveDir : Path) (tree : FileTree α) (entry : FileRecord × α) :
    Result (FileTree α) :=
  match entry.1.archivePath with
  | none => .ok tree
  | some path => writeFile tree (archiveDir ++ path.parts) entry.2

/-- The archive is made below its own path, where it stands at the end; an exception before that
leaves nothing. -/
def stageArchive (F : Formats α) (tree : FileTree α) (flowRoot archiveDir : Path) (runId : String)
    (maxCopyBytes : Int) : Result (FileTree α) := do
  raiseIf (runId.toList.all Char.isWhitespace = true) (.emuFlow
    "archive run ID must not be empty" [])
  raiseIf (maxCopyBytes < 0) (.emuFlow "archive max-copy-bytes must be non-negative" [])
  raiseIf (¬ tree.IsDir flowRoot) (.emuFlow "flow root does not exist: %s" [posix flowRoot])
  raiseIf (flowRoot <+: archiveDir ∨ archiveDir <+: flowRoot)
    (.emuFlow "archive and flow roots must be separate, non-nested directories" [])
  raiseIf (tree.IsDir archiveDir ∨ (tree.find archiveDir).isSome = true)
    (.emuFlow "archive output already exists: %s" [posix archiveDir])
  let reportContent ← readFile tree (flowRoot ++ [reportName])
  let report ← F.readReport reportContent
  let summary ← F.summary report
  let reported ← reportedArtifacts F tree report flowRoot
  let candidates := candidateFiles tree flowRoot reported.internal
  let records ← (sortedBy posix (candidates.map Prod.fst).dedup).mapM
    (makeRecord F tree flowRoot maxCopyBytes reported candidates)
  let copied ← records.foldlM (copyTurn archiveDir) tree
  forM (records.filterMap fun entry => entry.1.archivePath) fun path =>
    validateJson F copied (archiveDir ++ path.parts)
  let manifest : Manifest :=
    { runId := runId
      flowRoot := flowRoot
      flowReport := { parts := [reportName] }
      summary := summary
      maxCopyBytes := maxCopyBytes
      files := records.map Prod.fst }
  let withManifest ← writeFile copied (archiveDir ++ ["archive-manifest.json"])
    (F.manifest manifest)
  writeFile withManifest (archiveDir ++ ["cleanup-seal.json"]) (F.cleanupSeal
    { sourceFlowRoot := flowRoot, manifestSha256 := F.sha256 (F.manifest manifest) })

/-- `create_validation_archive`: the file tree afterwards, and the outcome. -/
def createValidationArchive (F : Formats α) (tree : FileTree α) (flowRoot archiveDir : Path)
    (runId : String) (maxCopyBytes : Int) : FileTree α × Result Validated :=
  let staged := do
    let flowRoot ← tree.resolve flowRoot
    let archiveDir ← tree.resolve archiveDir
    let staged ← stageArchive F tree flowRoot archiveDir runId maxCopyBytes
    return (staged, archiveDir)
  match staged with
  | .error e => (tree, .error e)
  | .ok (tree, archiveDir) => (tree, validateValidationArchive F tree archiveDir)

def checkSource (F : Formats α) (tree : FileTree α) (flowRoot : Path) (record : FileRecord) :
    Result Unit := do
  let relative ← checkedRelativePath record.sourcePath
  let source ← sourceFile tree flowRoot relative
  let content ← readFile tree source
  raiseIf (¬ Agrees F record content)
    (.validation "cleanup source changed after archiving: %s" [posix relative])

def checkCleanup (F : Formats α) (home : Path) (tree : FileTree α) (archiveDir flowRoot : Path) :
    Result Validated := do
  let validation ← validateValidationArchive F tree archiveDir
  let manifest ← archiveManifest F tree archiveDir
  raiseIf (∃ record ∈ manifest.files, record.retention = .hashOnly)
    (ValidationError ("cleanup refuses a non-replayable archive with hash-only files; " ++
      "retain the source run or create a role-complete experiment evidence bundle"))
  raiseIf (flowRoot ≠ manifest.flowRoot)
    (ValidationError "cleanup flow root does not match the source root sealed in archive")
  raiseIf (¬ tree.IsDir flowRoot)
    (.validation "cleanup source root does not exist: %s" [posix flowRoot])
  raiseIf (flowRoot <+: archiveDir ∨ archiveDir <+: flowRoot)
    (ValidationError "cleanup refuses nested flow/archive roots")
  raiseIf (flowRoot = [] ∨ flowRoot = home ∨ flowRoot.length + 1 < 3)
    (.validation "cleanup refuses unsafe source root: %s" [posix flowRoot])
  let reportContent ← readFile tree (flowRoot ++ [reportName])
  let report ← F.readReport reportContent
  let _ ← F.summary report
  forM manifest.files (checkSource F tree flowRoot)
  return validation

/-- `cleanup_validation_source` of resolved directories: the file tree afterwards, and the
outcome. -/
def cleanupValidationSource (F : Formats α) (home : Path) (tree : FileTree α)
    (archiveDir flowRoot : Path) : FileTree α × Result Receipt :=
  match checkCleanup F home tree archiveDir flowRoot with
  | .error e => (tree, .error e)
  | .ok validation =>
    let receipt : Receipt :=
      { sourceFlowRoot := flowRoot, archiveManifestSha256 := validation.manifestSha256 }
    let removed := tree.removeTree flowRoot
    match writeFile removed (archiveDir ++ ["cleanup-receipt.json"]) (F.receipt receipt) with
    | .error e => (removed, .error e)
    | .ok tree => (tree, .ok receipt)

end EmuFlow.ValidationArchive
