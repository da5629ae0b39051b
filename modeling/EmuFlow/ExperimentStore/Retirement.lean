import EmuFlow.ExperimentStore.Gc

/-!
# Retirement of legacy runs

`apply_legacy_run_retirement` and `resume_legacy_run_retirement` of `emuflow/experiment_store.py`,
with the sealing and the marking of the farms. An application is the list of its file operations, so
that a point at which it stops is a prefix of the list. JSON documents are typed records; digests,
the reading of documents and where a symbolic link leads are parameters.
-/

namespace EmuFlow.ExperimentStore

open Check SortedSet

def EXPERIMENT_RETIREMENT_PLAN_SCHEMA : String := "emuflow.experiment-retirement-plan/v1"

def EXPERIMENT_RETIREMENT_RECEIPT_SCHEMA : String := "emuflow.experiment-retirement-receipt/v1"

def FARM_RETIREMENT_MARKER : String := "RETIREMENT_PENDING.json"

def FARM_RETIREMENT_MARKER_SCHEMA : String := "emuflow.validation-farm-retirement-pending/v1"

def LEGACY_FARM_STATE_SCHEMA : String := "emuflow.validation-farm-state/v1"

/-! ## documents -/

inductive RunFile (α : Type) where
  | file (content : α)
  | link (target : String)
  deriving DecidableEq

abbrev RunTree (α : Type) := DirectoryTree String (RunFile α)

abbrev RunEntries (α : Type) := List (Path × FileEntry (RunFile α))

inductive RecordKind where
  | directory
  | link (target : String)
  | file (bytes : ℕ) (sha256 : String)

/-- A record of `_retirement_artifact_digest`. -/
structure RetirementRecord where
  path : Path
  kind : RecordKind

/-- A marker file of the inventory, which is kept with the receipt. -/
structure MarkerRecord where
  path : Path
  sha256 : String
  deriving DecidableEq

structure RetirementCandidate extends Seal where
  name : String
  markers : List MarkerRecord
  deriving DecidableEq

structure RetirementPlan where
  schema : String := EXPERIMENT_RETIREMENT_PLAN_SCHEMA
  status : String := "planned"
  reason : String
  root : Path
  migrationPath : String
  migrationSha256 : String
  candidates : List RetirementCandidate
  /-- `plan_legacy_run_retirement` refuses names that are not unique. -/
  names_nodup : (candidates.map RetirementCandidate.name).Nodup

inductive QuarantineStatus where
  | planned
  | moved
  | removed
  deriving DecidableEq

structure QuarantineRecord where
  name : String
  path : Path
  status : QuarantineStatus

structure RetirementReceipt where
  schema : String := EXPERIMENT_RETIREMENT_RECEIPT_SCHEMA
  status : String := "in-progress"
  planSha256 : String
  reason : String
  removed : List RetirementCandidate
  removedBytes : ℕ
  quarantine : List QuarantineRecord

structure PendingMarker where
  schema : String := FARM_RETIREMENT_MARKER_SCHEMA
  status : String := "retirement-pending"
  planSha256 : String
  deriving DecidableEq

/-- Files as bytes, digests, and where links lead. -/
structure RunFormats (α : Type) where
  size : α → ℕ
  sha256 : α → String
  canonicalSha256 : List RetirementRecord → String
  planSha256 : RetirementPlan → String
  receiptSha256 : RetirementReceipt → String
  length_receiptSha256 : ∀ receipt, (receiptSha256 receipt).length = 64
  pendingMarker : PendingMarker → α
  size_pendingMarker : ∀ marker, 0 < size (pendingMarker marker)
  readMarker : α → Result PendingMarker
  readMarker_pendingMarker : ∀ marker, readMarker (pendingMarker marker) = .ok marker
  /-- `schema` and `status` of a task state that can be read and has both. -/
  taskState : α → Option (String × String)
  /-- The regular file a link at a path leads to. -/
  followFile : RunTree α → Path → String → Option α
  /-- The link at a path leads to a directory. -/
  leadsToDirectory : RunTree α → Path → String → Bool

variable {α : Type}

def recordKind (F : RunFormats α) : FileEntry (RunFile α) → RecordKind
  | .directory => .directory
  | .leaf (.link target) => .link target
  | .leaf (.file content) => .file (F.size content) (F.sha256 content)

def entryBytes (F : RunFormats α) : FileEntry (RunFile α) → ℕ
  | .leaf (.file content) => F.size content
  | _ => 0

def sealEntries (F : RunFormats α) (entries : RunEntries α) : Seal where
  kind := .directory
  sha256 := F.canonicalSha256 (sortedBy (fun record => "/".intercalate record.path)
    (entries.map fun e => { path := e.1, kind := recordKind F e.2 }))
  bytes := (entries.map fun e => entryBytes F e.2).sum

def withoutIgnored (ignored : List Path) (entries : RunEntries α) : RunEntries α :=
  entries.filter fun e => ¬ ∃ path ∈ ignored, path <+: e.1

def retirementArtifactDigest (F : RunFormats α) (files : RunTree α) (path : Path)
    (ignored : List Path) : Result Seal :=
  match files.find path with
  | some (.leaf (.link _)) =>
    .error (ValidationError "legacy retirement candidate is a symlink")
  | some (.leaf (.file content)) =>
    .ok { kind := .file, sha256 := F.sha256 content, bytes := F.size content }
  | _ => .ok (sealEntries F (withoutIgnored ignored (files.below path)))

/-! ## farms -/

def fileAt (F : RunFormats α) (files : RunTree α) (path : Path) : Option α :=
  match files.leafAt path with
  | some (.file content) => some content
  | some (.link target) => F.followFile files path target
  | none => none

def plainFile (files : RunTree α) (path : Path) : Option α :=
  match files.leafAt path with
  | some (.file content) => some content
  | _ => none

/-- `path.is_symlink()` -/
def isLink (files : RunTree α) (path : Path) : Bool :=
  match files.leafAt path with
  | some (.link _) => true
  | _ => false

def FARM_MANIFEST : String := "farm-manifest.json"

def farmDirectories (entries : RunEntries α) : List Path :=
  (sortedSet ((entries.filter fun e => e.1.getLast? = some FARM_MANIFEST).map Prod.fst)).map
    List.dropLast

/-- One turn of `_acquire_legacy_farm_launch_locks`. -/
def acquireFarm (files : RunTree α) (lockHeld : Path → Bool) (path farm : Path) : Result Path := do
  let directory := path ++ farm
  raiseIf ((plainFile files (directory ++ [FARM_MANIFEST])).isNone = true)
    (ValidationError "legacy validation farm manifest is unsafe")
  raiseIf ((plainFile files (directory ++ ["launch.lock"])).isNone = true)
    (ValidationError "legacy validation farm lacks a safe launch lock")
  raiseIf (lockHeld (directory ++ ["launch.lock"]) = true)
    (ValidationError "legacy validation farm launch is active")
  return directory

def acquireLegacyFarmLaunchLocks (files : RunTree α) (lockHeld : Path → Bool) (path : Path) :
    Result (List Path) :=
  (farmDirectories (files.below path)).mapM (acquireFarm files lockHeld path)

/-- `os.walk` lists the entry with the files. -/
def listedAsFile (F : RunFormats α) (files : RunTree α) (path : Path)
    (e : Path × FileEntry (RunFile α)) : Bool :=
  match e.2 with
  | .directory => false
  | .leaf (.file _) => true
  | .leaf (.link target) => !F.leadsToDirectory files (path ++ e.1) target

def stateReasons (F : RunFormats α) (e : Path × FileEntry (RunFile α)) : List String :=
  let relative := "/".intercalate e.1
  match e.2 with
  | .leaf (.file content) =>
    match F.taskState content with
    | some (schema, status) =>
      if schema ≠ LEGACY_FARM_STATE_SCHEMA ∨ status = "" then ["invalid-farm-state:" ++ relative]
      else if status = "pass" ∨ status = "failed" then []
      else ["nonterminal-farm-state:" ++ status ++ ":" ++ relative]
    | none => ["invalid-farm-state:" ++ relative]
  | _ => ["invalid-farm-state:" ++ relative]

/-- `reasons` of `_legacy_farm_retirement_protection`. -/
def retirementReasons (F : RunFormats α) (files : RunTree α) (path : Path) : List String :=
  let listed := (files.below path).filter (listedAsFile F files path)
  let states := listed.filter fun e => e.1.getLast? = some "state.json" ∧
    (path ++ e.1).dropLast.dropLast.getLast? = some "tasks"
  let manifests := listed.filter fun e => e.1.getLast? = some FARM_MANIFEST
  ((listed.filter fun e => e.1.getLast? = some FARM_RETIREMENT_MARKER).map fun e =>
      "farm-retirement-pending:" ++ "/".intercalate e.1) ++
    states.flatMap (stateReasons F) ++
    (if manifests ≠ [] ∧ states = [] then
      ["farm-manifest-without-verifiable-task-state"] else [])

/-! ## the application -/

/-- The copies and the receipt of a retirement, outside the run tree. -/
structure ReceiptRoot (α : Type) where
  plan : Option RetirementPlan := none
  tombstones : List (String × Path × α) := []
  receipt : Option RetirementReceipt := none

structure RetirementState (α : Type) where
  files : RunTree α
  /-- `receipt_root`, once it exists. -/
  receiptRoot : Option (ReceiptRoot α)

structure RetirementCall where
  plan : RetirementPlan
  expectedSha256 : String
  receiptPath : Path
  /-- The digest of the migration inventory, when it is a file. -/
  migrationSha256 : Option String
  lockHeld : Path → Bool

/-- `.emuflow-retiring-<name>-<digest>` -/
def quarantinePath (root : Path) (sha256 name : String) : Path :=
  root ++ [".emuflow-retiring-" ++ name ++ "-" ++ String.ofList (sha256.toList.take 12)]

/-- `Path(name).name == name` -/
def isSafeName (name : String) : Bool := name ≠ "." && name.toList.all fun c => c ≠ '/'

def isOuterName (name : String) : Bool := name = "" || name = ".."

def validateMarker (F : RunFormats α) (files : RunTree α) (name : String) (path : Path)
    (marker : MarkerRecord) : Result Unit :=
  match plainFile files (path ++ marker.path) with
  | some content =>
    raiseIf (F.sha256 content ≠ marker.sha256)
      (.validation "legacy retirement marker changed: %s" [name])
  | none => .error (.validation "legacy retirement marker changed: %s" [name])

def validateCandidate (F : RunFormats α) (files : RunTree α) (call : RetirementCall)
    (candidate : RetirementCandidate) : Result (List Path) := do
  raiseIf (isSafeName candidate.name = false)
    (ValidationError "legacy retirement candidate path is unsafe")
  let path := call.plan.root ++ [candidate.name]
  raiseIf (isOuterName candidate.name = true ∨ files.isDirectory path = false)
    (.validation "legacy retirement candidate changed: %s" [candidate.name])
  let farms ← acquireLegacyFarmLaunchLocks files call.lockHeld path
  raiseIf (retirementReasons F files path ≠ [])
    (.validation "legacy retirement refuses active or unreconciled farm: %s" [candidate.name])
  let digest ← retirementArtifactDigest F files path []
  raiseIf (digest ≠ candidate.toSeal)
    (.validation "legacy retirement candidate changed: %s" [candidate.name])
  candidate.markers.forM (validateMarker F files candidate.name path)
  return farms

def acceptRetirement (F : RunFormats α) (state : RetirementState α) (call : RetirementCall) :
    Result (List Path) := do
  raiseIf (call.expectedSha256.length ≠ 64 ∨ F.planSha256 call.plan ≠ call.expectedSha256)
    (ValidationError "legacy retirement plan approval seal is broken")
  raiseIf (call.plan.schema ≠ EXPERIMENT_RETIREMENT_PLAN_SCHEMA ∨ call.plan.status ≠ "planned")
    (ValidationError "legacy retirement plan is invalid")
  raiseIf (call.migrationSha256 ≠ some call.plan.migrationSha256)
    (ValidationError "legacy migration inventory changed after retirement planning")
  raiseIf (call.plan.root <+: call.receiptPath ∨ call.receiptPath <+: call.plan.root)
    (ValidationError "legacy retirement receipt must be outside the run tree")
  raiseIf (state.receiptRoot.isSome = true)
    (ValidationError "legacy retirement receipt already exists")
  let farms ← call.plan.candidates.mapM (validateCandidate F state.files call)
  return farms.flatten

/-- The file operations of an application. -/
inductive RetirementAction where
  | makeReceiptRoot
  | copyPlan
  | copyTombstone (name : String) (marker : Path)
  | writeReceipt (receipt : RetirementReceipt)
  | checkQuarantine (destinations : List Path)
  | checkUnmarked (farms : List Path)
  | writeMarker (farm : Path)
  | rename (source destination : Path)
  | removeTree (path : Path)

/-- An operation of the file system that cannot be done. -/
def osError {β : Type} : Option β → Result β
  | some b => .ok b
  | none => .error (.raised "OSError" "")

def onReceiptRoot (state : RetirementState α) (f : ReceiptRoot α → ReceiptRoot α) :
    Result (RetirementState α) := do
  let receiptRoot ← osError state.receiptRoot
  return { state with receiptRoot := some (f receiptRoot) }

def runAction (F : RunFormats α) (call : RetirementCall) (state : RetirementState α) :
    RetirementAction → Result (RetirementState α)
  | .makeReceiptRoot => .ok { state with receiptRoot := some {} }
  | .copyPlan => onReceiptRoot state fun r => { r with plan := some call.plan }
  | .copyTombstone name marker => do
    let content ← osError (plainFile state.files (call.plan.root ++ [name] ++ marker))
    onReceiptRoot state fun r => { r with tombstones := r.tombstones ++ [(name, marker, content)] }
  | .writeReceipt receipt => onReceiptRoot state fun r => { r with receipt := some receipt }
  | .checkQuarantine destinations => do
    raiseIf (∃ path ∈ destinations, (state.files.find path).isSome = true)
      (ValidationError "legacy retirement quarantine path exists")
    return state
  | .checkUnmarked farms => do
    raiseIf (∃ farm ∈ farms, (state.files.find (farm ++ [FARM_RETIREMENT_MARKER])).isSome = true)
      (ValidationError "legacy validation farm is already retiring")
    return state
  | .writeMarker farm => do
    let files ← osError (state.files.writeLeaf (farm ++ [FARM_RETIREMENT_MARKER])
      (.file (F.pendingMarker { planSha256 := call.expectedSha256 })))
    return { state with files := files }
  | .rename source destination => do
    let files ← osError (state.files.rename source destination)
    return { state with files := files }
  | .removeTree path => .ok { state with files := state.files.removeTree path }

def quarantineRecord (call : RetirementCall) (status : QuarantineStatus)
    (candidate : RetirementCandidate) : QuarantineRecord where
  name := candidate.name
  path := quarantinePath call.plan.root call.expectedSha256 candidate.name
  status := status

def movingReceipt (call : RetirementCall) (moved : ℕ) : RetirementReceipt where
  planSha256 := call.expectedSha256
  reason := call.plan.reason
  removed := []
  removedBytes := 0
  quarantine := (call.plan.candidates.take moved).map (quarantineRecord call .moved) ++
    (call.plan.candidates.drop moved).map (quarantineRecord call .planned)

def removingReceipt (call : RetirementCall) (removed : ℕ) : RetirementReceipt where
  planSha256 := call.expectedSha256
  reason := call.plan.reason
  removed := call.plan.candidates.take removed
  removedBytes := ((call.plan.candidates.take removed).map fun c => c.bytes).sum
  quarantine := (call.plan.candidates.take removed).map (quarantineRecord call .removed) ++
    (call.plan.candidates.drop removed).map (quarantineRecord call .moved)

/-! ## the script -/

def preparation (call : RetirementCall) (farms : List Path) : List RetirementAction :=
  [.makeReceiptRoot, .copyPlan] ++
    (call.plan.candidates.flatMap fun candidate =>
      candidate.markers.map fun marker => .copyTombstone candidate.name marker.path) ++
    [.writeReceipt (movingReceipt call 0),
      .checkQuarantine (call.plan.candidates.map fun candidate =>
        quarantinePath call.plan.root call.expectedSha256 candidate.name),
      .checkUnmarked farms] ++
    farms.map .writeMarker

/-- One turn of the loop that moves the candidates. -/
def moveActions (call : RetirementCall) (item : RetirementCandidate × ℕ) : List RetirementAction :=
  [.rename (call.plan.root ++ [item.1.name])
      (quarantinePath call.plan.root call.expectedSha256 item.1.name),
    .writeReceipt (movingReceipt call (item.2 + 1))]

def moves (call : RetirementCall) : List RetirementAction :=
  call.plan.candidates.zipIdx.flatMap (moveActions call)

/-- One turn of the loop that removes the quarantined trees. -/
def removeActions (call : RetirementCall) (item : RetirementCandidate × ℕ) :
    List RetirementAction :=
  [.removeTree (quarantinePath call.plan.root call.expectedSha256 item.1.name),
    .writeReceipt (removingReceipt call (item.2 + 1))]

def removals (call : RetirementCall) : List RetirementAction :=
  call.plan.candidates.zipIdx.flatMap (removeActions call)

def retirementScript (call : RetirementCall) (farms : List Path) : List RetirementAction :=
  preparation call farms ++ moves call ++ removals call ++
    [.writeReceipt { removingReceipt call call.plan.candidates.length with status := "pass" }]

def runActions (F : RunFormats α) (call : RetirementCall) (state : RetirementState α)
    (actions : List RetirementAction) : Result (RetirementState α) :=
  actions.foldlM (runAction F call) state

def applyLegacyRunRetirement (F : RunFormats α) (call : RetirementCall)
    (state : RetirementState α) : Result (RetirementState α) := do
  let farms ← acceptRetirement F state call
  runActions F call state (retirementScript call farms)

/-! ## the resumption -/

def ignoredPaths (F : RunFormats α) (files : RunTree α) (receipt : RetirementReceipt)
    (path : Path) : Result (List Path) :=
  match fileAt F files (path ++ [FARM_RETIREMENT_MARKER]) with
  | none => .ok []
  | some content => do
    let marker ← F.readMarker content
    raiseIf (marker.schema ≠ FARM_RETIREMENT_MARKER_SCHEMA ∨ marker.status ≠ "retirement-pending" ∨
        marker.planSha256 ≠ receipt.planSha256)
      (ValidationError "legacy retirement pending marker changed")
    return [[FARM_RETIREMENT_MARKER]]

/-- A quarantined tree that is still to be removed, with the index of its record. -/
structure Pending where
  candidate : RetirementCandidate
  index : ℕ
  path : Path

def revalidate (F : RunFormats α) (files : RunTree α) (plan : RetirementPlan)
    (receipt : RetirementReceipt) (item : QuarantineRecord × ℕ) : Result (Option Pending) := do
  let record := item.1
  let candidate ←
    match plan.candidates.find? fun candidate => candidate.name = record.name with
    | some candidate => .ok candidate
    | none => .error (ValidationError "legacy retirement resume candidate is invalid")
  raiseIf (isSafeName record.name = false)
    (ValidationError "legacy retirement resume candidate is invalid")
  raiseIf (record.path ≠ quarantinePath plan.root receipt.planSha256 record.name ∨
      isLink files record.path = true)
    (ValidationError "legacy retirement quarantine path changed")
  raiseIf (isOuterName record.name = true ∨ (files.find (plan.root ++ [record.name])).isSome = true)
    (ValidationError "legacy retirement original name reappeared")
  if record.status = .removed then do
    raiseIf ((files.find record.path).isSome = true ∨
        record.name ∉ receipt.removed.map RetirementCandidate.name)
      (ValidationError "legacy retirement removed state changed")
    return none
  else do
    raiseIf (record.status ≠ .moved ∨ files.isDirectory record.path = false)
      (ValidationError "legacy retirement quarantine state changed")
    let ignored ← ignoredPaths F files receipt record.path
    let digest ← retirementArtifactDigest F files record.path ignored
    raiseIf (digest ≠ candidate.toSeal)
      (ValidationError "legacy retirement quarantine content changed")
    return some { candidate := candidate, index := item.2, path := record.path }

def acceptResumption (F : RunFormats α) (state : RetirementState α)
    (expectedReceiptSha256 : String) : Result (RetirementReceipt × List Pending) := do
  let receiptRoot ←
    match state.receiptRoot with
    | some receiptRoot => .ok receiptRoot
    | none => .error (ValidationError "legacy retirement resume receipt seal is broken")
  let receipt ←
    match receiptRoot.receipt with
    | some receipt => .ok receipt
    | none => .error (ValidationError "legacy retirement resume receipt seal is broken")
  raiseIf (expectedReceiptSha256.length ≠ 64 ∨ F.receiptSha256 receipt ≠ expectedReceiptSha256)
    (ValidationError "legacy retirement resume receipt seal is broken")
  raiseIf (receipt.schema ≠ EXPERIMENT_RETIREMENT_RECEIPT_SCHEMA ∨ receipt.status ≠ "in-progress")
    (ValidationError "legacy retirement receipt is not resumable")
  let plan ←
    match receiptRoot.plan with
    | some plan => .ok plan
    | none => .error (ValidationError "legacy retirement copied plan seal is broken")
  raiseIf (F.planSha256 plan ≠ receipt.planSha256)
    (ValidationError "legacy retirement copied plan seal is broken")
  raiseIf (plan.schema ≠ EXPERIMENT_RETIREMENT_PLAN_SCHEMA ∨ plan.status ≠ "planned")
    (ValidationError "legacy retirement copied plan is invalid")
  let pending ← receipt.quarantine.zipIdx.mapM (revalidate F state.files plan receipt)
  return (receipt, pending.filterMap id)

def recordRemoval (receipt : RetirementReceipt) (pending : Pending) : RetirementReceipt :=
  { receipt with
    removed := receipt.removed ++ [pending.candidate]
    removedBytes := receipt.removedBytes + pending.candidate.bytes
    quarantine := receipt.quarantine.modify pending.index fun record =>
      { record with status := .removed } }

def removePending (current : RetirementReceipt × RunTree α) (pending : Pending) :
    Result (RetirementReceipt × RunTree α) := do
  raiseIf ((current.2.find pending.path).isNone = true) (.raised "FileNotFoundError" "")
  return (recordRemoval current.1 pending, current.2.removeTree pending.path)

def resumeLegacyRunRetirement (F : RunFormats α) (state : RetirementState α)
    (expectedReceiptSha256 : String) : Result (RetirementReceipt × RetirementState α) := do
  let (receipt, pending) ← acceptResumption F state expectedReceiptSha256
  let (receipt, files) ← pending.foldlM removePending (receipt, state.files)
  let final := { receipt with status := "pass" }
  return (final, {
    files := files
    receiptRoot := state.receiptRoot.map fun r => { r with receipt := some final } })

end EmuFlow.ExperimentStore
