import EmuFlow.Errors
import EmuFlow.Lib.DirectoryTree
import EmuFlow.Lib.SortedSet

/-!
# Experiment garbage collection

`_root_execution_keys`, `plan_experiment_gc` and `apply_experiment_gc` of
`emuflow/experiment_store.py`. The cache is a directory tree without symbolic links, so that a path
is its own resolution; JSON documents are typed records, and digests, ages and the reading of a
checkpoint manifest are parameters. Times of day and the quota of the write path are left out.
-/

namespace EmuFlow.ExperimentStore

open Check SortedSet

def EXPERIMENT_PLAN_SCHEMA : String := "emuflow.experiment-dag-plan/v1"

def EXPERIMENT_PLAN_V2_SCHEMA : String := "emuflow.experiment-dag-plan/v2"

def EXPERIMENT_GC_PLAN_SCHEMA : String := "emuflow.experiment-gc-plan/v1"

def EXPERIMENT_GC_RECEIPT_SCHEMA : String := "emuflow.experiment-gc-receipt/v1"

/-- The components from the root. -/
abbrev Path := List String

structure RawPath where
  absolute : Bool := true
  parts : Path

/-! ## documents -/

structure PlanNode where
  executionKey : String
  outputDir : RawPath

structure ExperimentPlan where
  schema : String := EXPERIMENT_PLAN_V2_SCHEMA
  cacheRoot : RawPath
  nodes : List PlanNode

inductive ArtifactKind where
  | file
  | directory
  deriving DecidableEq

/-- A record of `_artifact_digest`; a file has its size and digest. -/
structure ArtifactRecord where
  path : Path
  file : Option (ℕ × String)

/-- What `_artifact_digest` returns. -/
structure Seal where
  kind : ArtifactKind
  sha256 : String
  bytes : ℕ
  deriving DecidableEq

structure RootSource where
  path : String
  sha256 : String
  executionKeys : List String
  objectKeys : List String

structure GcCandidate extends Seal where
  path : RawPath
  area : String
  ageSeconds : ℚ
  reason : String

structure GcPlan where
  schema : String := EXPERIMENT_GC_PLAN_SCHEMA
  status : String := "planned"
  cacheRoot : Path
  minimumAgeSeconds : ℤ
  roots : List RootSource
  candidates : List GcCandidate
  candidateBytes : ℕ

structure GcReceipt where
  schema : String := EXPERIMENT_GC_RECEIPT_SCHEMA
  status : String := "pass"
  planSha256 : String
  removed : List GcCandidate
  removedBytes : ℕ

/-- Files as bytes, and digests. -/
structure Formats (α : Type) where
  size : α → ℕ
  sha256 : α → String
  canonicalSha256 : List ArtifactRecord → String
  /-- The digest of the written plan. -/
  gcPlanSha256 : GcPlan → String
  length_gcPlanSha256 : ∀ plan, (gcPlanSha256 plan).length = 64
  receipt : GcReceipt → α
  /-- `output_dir` of a checkpoint manifest. -/
  outputDir : α → Option Path

/-- The plans and the cache at one time. A plan that cannot be read raises. -/
structure World (α : Type) where
  readPlan : String → Result ExperimentPlan
  planSha256 : String → String
  files : DirectoryTree String α

variable {α : Type}

/-! ## roots -/

def loadPlan (world : World α) (path : String) : Result ExperimentPlan := do
  let plan ← world.readPlan path
  raiseIf (plan.schema ≠ EXPERIMENT_PLAN_SCHEMA ∧ plan.schema ≠ EXPERIMENT_PLAN_V2_SCHEMA)
    (ValidationError "experiment plan schema is invalid")
  raiseIf (plan.cacheRoot.absolute = false)
    (ValidationError "experiment plan cache_root must be absolute")
  raiseIf (plan.nodes = []) (ValidationError "experiment plan requires nodes")
  return plan

def isHexKey (name : String) : Bool :=
  name.length = 64 && name.toList.all fun c => ('0' ≤ c && c ≤ '9') || ('a' ≤ c && c ≤ 'f')

def outputObject (objectRoot : Path) (node : PlanNode) : Result (Option String) := do
  raiseIf (node.outputDir.absolute = false)
    (ValidationError "experiment GC root output_dir must be absolute")
  if objectRoot <+: node.outputDir.parts then
    match node.outputDir.parts.drop objectRoot.length with
    | [object, output] => do
      raiseIf (output ≠ "output" ∨ isHexKey object = false)
        (ValidationError "experiment GC root output_dir is not a cache object")
      return some object
    | _ => .error (ValidationError "experiment GC root output_dir is not a cache object")
  else return none

def objectRoot (cacheRoot : Path) : Path := cacheRoot ++ ["objects"]

def rootSource (world : World α) (cacheRoot : Path) (path : String) : Result RootSource := do
  let plan ← loadPlan world path
  raiseIf (plan.schema ≠ EXPERIMENT_PLAN_V2_SCHEMA)
    (ValidationError "experiment GC roots require v2 plans")
  raiseIf (plan.cacheRoot.parts ≠ cacheRoot)
    (ValidationError "experiment GC root plan uses a different cache")
  let planKeys := sorted (plan.nodes.map PlanNode.executionKey)
  let aliases ← plan.nodes.mapM (outputObject (objectRoot cacheRoot))
  return {
    path := path
    sha256 := world.planSha256 path
    executionKeys := planKeys
    objectKeys := sortedSet (planKeys ++ aliases.filterMap id) }

/-- `_root_execution_keys`, the sources; the keys are the union of their `object_keys`. -/
def rootExecutionKeys (world : World α) (planPaths : List String) (cacheRoot : Path) :
    Result (List RootSource) := planPaths.mapM (rootSource world cacheRoot)

def rootKeys (sources : List RootSource) : List String := sources.flatMap RootSource.objectKeys

/-- `_artifact_digest` of what is at a path; a path without an entry has no records. -/
def artifactDigest (F : Formats α) (files : DirectoryTree String α) (path : Path) : Seal :=
  match files.leafAt path with
  | some content => { kind := .file, sha256 := F.sha256 content, bytes := F.size content }
  | none =>
    let records := (sortedBy Prod.fst ((files.below path).map fun e =>
      (e.1, match e.2 with
        | .leaf content => some (F.size content, F.sha256 content)
        | .directory => none))).map fun e => ({ path := e.1, file := e.2 } : ArtifactRecord)
    { kind := .directory
      sha256 := F.canonicalSha256 records
      bytes := (records.map fun record => (record.file.map Prod.fst).getD 0).sum }

def areas : List String := ["objects", "staging", "failures", "scratch"]

def gcCandidate (F : Formats α) (world : World α) (age : Path → ℚ) (minimumAgeSeconds : ℤ)
    (cacheRoot : Path) (roots : List String) (area name : String) : Option GcCandidate :=
  let path := cacheRoot ++ [area, name]
  if area = "objects" ∧ name ∈ roots then none
  else if max 0 (age path) < minimumAgeSeconds then none
  else
    some {
      artifactDigest F world.files path with
      path := { absolute := false, parts := [area, name] }
      area := area
      ageSeconds := max 0 (age path)
      reason := if area = "objects" then "unreferenced-checkpoint" else "expired-" ++ area }

def areaCandidates (F : Formats α) (world : World α) (age : Path → ℚ) (minimumAgeSeconds : ℤ)
    (cacheRoot : Path) (roots : List String) (area : String) : List GcCandidate :=
  (sorted (world.files.children (cacheRoot ++ [area]))).filterMap
    (gcCandidate F world age minimumAgeSeconds cacheRoot roots area)

def planExperimentGc (F : Formats α) (world : World α) (age : Path → ℚ) (cacheRoot : Path)
    (rootPlans : List String) (minimumAgeSeconds : ℤ) : Result GcPlan := do
  raiseIf (minimumAgeSeconds < 0) (ValidationError "experiment GC minimum age is invalid")
  let sources ← rootExecutionKeys world rootPlans cacheRoot
  let candidates := areas.flatMap
    (areaCandidates F world age minimumAgeSeconds cacheRoot (rootKeys sources))
  return {
    cacheRoot := cacheRoot
    minimumAgeSeconds := minimumAgeSeconds
    roots := sources
    candidates := candidates
    candidateBytes := (candidates.map fun candidate => candidate.bytes).sum }

/-! ## the application -/

def checkCandidate (F : Formats α) (cacheRoot : Path) (roots : List String)
    (files : DirectoryTree String α) (candidate : GcCandidate) : Result Path := do
  raiseIf (candidate.path.absolute = true ∨ ".." ∈ candidate.path.parts)
    (ValidationError "experiment GC candidate path is unsafe")
  let path := cacheRoot ++ candidate.path.parts
  raiseIf (¬ cacheRoot <+: path) (ValidationError "experiment GC candidate escapes cache root")
  raiseIf (candidate.area = "objects" ∧ path.getLast? ∈ roots.map some)
    (ValidationError "experiment GC candidate became referenced")
  raiseIf (artifactDigest F files path ≠ candidate.toSeal)
    (.validation "experiment GC candidate changed after approval: %s"
      ["/".intercalate candidate.path.parts])
  -- the digest of a path without an entry is that of an empty directory
  raiseIf (files.find path = none) (.raised "FileNotFoundError" ("/".intercalate path))
  return path

def removeCandidates (F : Formats α) (cacheRoot : Path) (roots : List String) :
    DirectoryTree String α → List GcCandidate → Result Unit × DirectoryTree String α
  | files, [] => (.ok (), files)
  | files, candidate :: rest =>
    match checkCandidate F cacheRoot roots files candidate with
    | .error e => (.error e, files)
    | .ok path => removeCandidates F cacheRoot roots (files.removeTree path) rest

/-- What an application returns or raises, and the cache it leaves. -/
structure Applied (α : Type) where
  result : Result GcReceipt
  files : DirectoryTree String α

def receiptPath (cacheRoot : Path) (sha256 : String) : Path :=
  cacheRoot ++ ["gc-receipts", sha256 ++ ".json"]

/-- The receipt is written; where it cannot be, the error of the file system goes through. -/
def writeReceipt (F : Formats α) (cacheRoot : Path) (receipt : GcReceipt)
    (files : DirectoryTree String α) : Applied α :=
  match files.writeFile (receiptPath cacheRoot receipt.planSha256) (F.receipt receipt) with
  | some written => { result := .ok receipt, files := written }
  | none => { result := .error (.raised "OSError" "gc-receipts"), files := files }

def approve (F : Formats α) (world : World α) (plan : GcPlan) (expectedSha256 : String) :
    Result (List String) := do
  raiseIf (expectedSha256.length ≠ 64 ∨ F.gcPlanSha256 plan ≠ expectedSha256)
    (ValidationError "experiment GC plan approval seal is broken")
  raiseIf (plan.schema ≠ EXPERIMENT_GC_PLAN_SCHEMA ∨ plan.status ≠ "planned")
    (ValidationError "experiment GC plan is invalid")
  let sources ← rootExecutionKeys world (plan.roots.map RootSource.path) plan.cacheRoot
  return rootKeys sources

/-- `apply_experiment_gc`; `plan` is what the plan file has. -/
def applyExperimentGc (F : Formats α) (world : World α) (plan : GcPlan) (expectedSha256 : String) :
    Applied α :=
  match approve F world plan expectedSha256 with
  | .error e => { result := .error e, files := world.files }
  | .ok roots =>
    match removeCandidates F plan.cacheRoot roots world.files plan.candidates with
    | (.error e, files) => { result := .error e, files := files }
    | (.ok (), files) =>
      writeReceipt F plan.cacheRoot
        { planSha256 := expectedSha256
          removed := plan.candidates
          removedBytes := (plan.candidates.map fun candidate => candidate.bytes).sum } files

end EmuFlow.ExperimentStore
