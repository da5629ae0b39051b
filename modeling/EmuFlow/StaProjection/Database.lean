import EmuFlow.Lib.Representatives
import EmuFlow.Replication.Delivery
import EmuFlow.TdmRatio.Validate

/-!
# Timing paths projected onto a partition

`project_sta_path_database_value` of `emuflow/sta.py` and `compress_sta_paths` of
`emuflow/timing_routing.py`: the timing paths of a design with the FPGA boundaries they cross in a
partition, one representative for paths that no routing can tell apart. The records of the three
database formats are the same, so a database is the list of its records.
-/

namespace EmuFlow.StaProjection

open Check SortedSet Routing EmuFlow.Partition

def STA_PATH_DATABASE_SCHEMA : String := "emuflow.sta-path-database/v1"

def STA_PATH_DATABASE_STREAM_SCHEMA : String := "emuflow.sta-path-database/v2"

def STA_PATH_DATABASE_INDEX_SCHEMA : String := "emuflow.sta-path-database/v3"

def STA_PATHS_SCHEMA : String := "emuflow.sta-paths/v1"

/-! ## databases and assignments -/

structure PathPoint where
  inst : Option String

structure DatabasePath where
  id : String
  clockDomain : String
  clockPeriodNs : ℚ
  slackNs : ℚ
  fixedDelayNs : ℚ
  pathNets : List String
  normalizedSlack : ℚ
  startpoint : Option PathPoint
  endpoint : Option PathPoint

structure PathDatabase where
  schema : String
  design : String
  normalization : TimingNormalization
  paths : List DatabasePath

structure ProjectedAssignment where
  schema : String := PARTITION_ASSIGNMENT_SCHEMA
  design : String
  cutNets : List CutRecord
  instanceAssignment : InstanceAssignment

def ProjectedAssignment.cutByNet (assignment : ProjectedAssignment) (net : String) :
    Option CutRecord :=
  Keyed.find CutRecord.net assignment.cutNets.reverse net

structure ProjectedPath where
  id : String
  clockDomain : String
  clockPeriodNs : ℚ
  slackNs : ℚ
  fixedDelayNs : ℚ
  cutNets : List String
  cutSignature : List String
  normalizedSlack : ℚ
  compressedPathIds : List String
  cutTransitions : Option (List CutTransition)

structure PathsArtifact where
  schema : String
  design : String
  provider : String
  inputSha256 : String
  normalization : TimingNormalization
  originalPaths : Nat
  compressedPaths : Nat
  paths : List ProjectedPath

structure ProjectionReport where
  design : String
  databasePaths : Nat
  projectedPaths : Nat
  compressedPaths : Nat
  cutNets : Nat
  coveredCutNets : Nat
  uncoveredCutNets : Nat

/-- One turn of the loop over the candidates, from the last: the FPGA the path goes on in and the
transitions so far, or `none` once the chain is given up. -/
def transitionStep (assignment : ProjectedAssignment) (pathId : String)
    (state : Option (String × List CutTransition)) (net : String) :
    Result (Option (String × List CutTransition)) :=
  match state with
  | none => .ok none
  | some (target, reversed) =>
    match assignment.cutByNet net with
    | none => .error (.keyError net)
    | some cut =>
      match cut.sourceFpgas with
      | [source] =>
        -- a local fanout of a net whose other sinks make it a cut
        if source = target then .ok (some (target, reversed))
        else if target ∉ cut.sinkFpgas then
          .error (.validation "STA path %r partition %r cannot be reached through cut net %r"
            [pathId, target, net])
        else .ok (some (source, reversed ++ [{ net := net, source := source, sink := target }]))
      | _ => .ok none

def ProjectedAssignment.partition (assignment : ProjectedAssignment) (point : PathPoint) :
    Option String :=
  (point.inst.bind fun i => assignment.instanceAssignment.lookup i).filter fun f => f ≠ ""

def pathTransitions (assignment : ProjectedAssignment) (path : DatabasePath)
    (candidates : List String) : Result (List String × Option (List CutTransition)) :=
  match path.startpoint, path.endpoint with
  | some startpoint, some endpoint =>
    match assignment.partition endpoint with
    | none => .ok (candidates, none)
    | some endPartition => do
      match ← candidates.reverse.foldlM (transitionStep assignment path.id)
          (some (endPartition, [])) with
      | none => return (candidates, none)
      | some (target, reversed) =>
        raiseIf (∃ f ∈ startpoint.inst.bind fun i => assignment.instanceAssignment.lookup i,
            f ≠ target)
          (.validation "STA path %r launch/capture partition chain is inconsistent" [path.id])
        return (reversed.reverse.map CutTransition.net, some reversed.reverse)
  | _, _ => .ok (candidates, none)

/-! ## the records -/

def TOLERANCE : ℚ := 1 / 1000000000000

/-- The checks on the record at `index`; `seen` are the ids before it. -/
def checkDatabasePath (normalization : TimingNormalization) (seen : List String) (index : Nat)
    (path : DatabasePath) : Result Unit := do
  raiseIf (path.id = "" ∨ path.id ∈ seen ∨ path.clockDomain = "")
    (.validation "STA path database paths[%s] identity is invalid" [toString index])
  raiseIf (path.clockPeriodNs ≤ 0 ∨ path.fixedDelayNs < 0)
    (.validation "STA path database paths[%s] timing is invalid" [toString index])
  raiseIf (path.pathNets = [] ∨ "" ∈ path.pathNets ∨ ¬ path.pathNets.Nodup)
    (.validation "STA path database paths[%s].path_nets is invalid" [toString index])
  raiseIf (TOLERANCE < |path.normalizedSlack -
      TdmRatio.normalizedSlack path.clockPeriodNs path.slackNs normalization|)
    (.validation "STA path database paths[%s].normalized_slack is invalid" [toString index])

def cutSignature (assignment : ProjectedAssignment) (net : String) : String :=
  ((assignment.cutByNet net).map fun cut =>
    ",".intercalate cut.sourceFpgas ++ "->" ++ ",".intercalate cut.sinkFpgas).getD ""

def projectedPath (assignment : ProjectedAssignment) (normalization : TimingNormalization)
    (path : DatabasePath) (crossing : List String × Option (List CutTransition)) :
    Option ProjectedPath :=
  if crossing.1 = [] then none
  else some
    { id := path.id
      clockDomain := path.clockDomain
      clockPeriodNs := path.clockPeriodNs
      slackNs := path.slackNs
      fixedDelayNs := path.fixedDelayNs
      cutNets := crossing.1
      cutSignature := crossing.1.map (cutSignature assignment)
      normalizedSlack := TdmRatio.normalizedSlack path.clockPeriodNs path.slackNs normalization
      compressedPathIds := [path.id]
      cutTransitions := crossing.2 }

def candidates (assignment : ProjectedAssignment) (nets : List String) : List String :=
  nets.filter fun net => net ∈ assignment.cutNets.map CutRecord.net

def projectTurn (assignment : ProjectedAssignment) (normalization : TimingNormalization)
    (state : List String × List ProjectedPath) (item : DatabasePath × Nat) :
    Result (List String × List ProjectedPath) := do
  checkDatabasePath normalization state.1 item.2 item.1
  let crossing ← pathTransitions assignment item.1 (candidates assignment item.1.pathNets)
  return (state.1 ++ [item.1.id],
    state.2 ++ (projectedPath assignment normalization item.1 crossing).toList)

/-! ## compression -/

abbrev TransitionKey := String ×ₗ String ×ₗ String

/-- The signature of paths that no delay of the cut nets tells apart. -/
abbrev Signature :=
  String ×ₗ ℚ ×ₗ ℚ ×ₗ List String ×ₗ List String ×ₗ List TransitionKey

def transitionKey (transition : CutTransition) : TransitionKey :=
  lex transition.net (lex transition.source transition.sink)

def signature (path : ProjectedPath) : Signature :=
  lex path.clockDomain (lex path.clockPeriodNs (lex (path.fixedDelayNs + path.slackNs)
    (lex path.cutSignature (lex path.cutNets
      ((path.cutTransitions.getD []).map transitionKey)))))

def rank (path : ProjectedPath) : ℚ ×ₗ ℚ ×ₗ String :=
  lex path.fixedDelayNs (lex (-path.normalizedSlack) path.id)

/-- `compress_sta_paths`, on the paths of the artifact. -/
def compressPaths (paths : List ProjectedPath) : List ProjectedPath :=
  (sortedBy Prod.fst (Representatives.representatives signature rank paths)).map fun entry =>
    { entry.2.2 with compressedPathIds := sorted (entry.2.1.map ProjectedPath.id) }

/-! ## the projection -/

def expectedNormalization (paths : List DatabasePath) : TimingNormalization :=
  let positive := (paths.filter fun path => 0 ≤ path.slackNs).map DatabasePath.slackNs
  let negative := (paths.filter fun path => path.slackNs < 0).map DatabasePath.slackNs
  { positiveSlackScaleNs := if positive.foldr max 0 = 0 then 1 else positive.foldr max 0
    negativeSlackScaleNs := if negative = [] then 1 else |negative.foldr min 0|
    maxClockPeriodNs := (paths.map DatabasePath.clockPeriodNs).foldr max 0 }

def checkNormalization (normalization : TimingNormalization) : Result Unit := do
  raiseIf (normalization.maxClockPeriodNs ≤ 0)
    (.validation "STA path database normalization.%s is invalid" ["max_clock_period_ns"])
  raiseIf (normalization.negativeSlackScaleNs ≤ 0)
    (.validation "STA path database normalization.%s is invalid" ["negative_slack_scale_ns"])
  raiseIf (normalization.positiveSlackScaleNs ≤ 0)
    (.validation "STA path database normalization.%s is invalid" ["positive_slack_scale_ns"])

def normalizationMatches (expected normalization : TimingNormalization) : Prop :=
  |expected.positiveSlackScaleNs - normalization.positiveSlackScaleNs| ≤ TOLERANCE ∧
    |expected.negativeSlackScaleNs - normalization.negativeSlackScaleNs| ≤ TOLERANCE ∧
    |expected.maxClockPeriodNs - normalization.maxClockPeriodNs| ≤ TOLERANCE

instance (expected normalization : TimingNormalization) :
    Decidable (normalizationMatches expected normalization) :=
  inferInstanceAs (Decidable (_ ∧ _))

/-- `[0-9a-f]{64}` -/
def isSha256 (text : String) : Bool :=
  text.length = 64 && text.toList.all fun c => ('0' ≤ c && c ≤ '9') || ('a' ≤ c && c ≤ 'f')

def checkCutNet (cut : CutRecord) : Result Unit :=
  raiseIf ("" ∈ cut.sourceFpgas ∨ "" ∈ cut.sinkFpgas)
    (.validation "partition cut-net %r endpoint lists are invalid" [cut.net])

def projectStaPathDatabaseValue (database : PathDatabase) (assignment : ProjectedAssignment)
    (sourceInputSha256 : String) : Result (PathsArtifact × ProjectionReport) := do
  raiseIf (isSha256 sourceInputSha256 = false)
    (ValidationError "STA path projection input digest is invalid")
  raiseIf (database.schema ∉ [STA_PATH_DATABASE_SCHEMA, STA_PATH_DATABASE_STREAM_SCHEMA,
      STA_PATH_DATABASE_INDEX_SCHEMA])
    (ValidationError "STA path database schema is invalid")
  raiseIf (assignment.schema ≠ PARTITION_ASSIGNMENT_SCHEMA)
    (.validation "assignment.schema: expected %r" [PARTITION_ASSIGNMENT_SCHEMA])
  raiseIf (database.design ≠ assignment.design)
    (ValidationError "STA path database design does not match assignment")
  raiseIf (assignment.cutNets = [])
    (ValidationError "STA path projection requires partition cut nets")
  checkNormalization database.normalization
  forM ((sortedSet (assignment.cutNets.map CutRecord.net)).filterMap assignment.cutByNet)
    checkCutNet
  raiseIf (database.schema = STA_PATH_DATABASE_SCHEMA ∧ database.paths = [])
    (ValidationError "STA path database paths are invalid")
  let projection ← database.paths.zipIdx.foldlM
    (projectTurn assignment database.normalization) ([], [])
  raiseIf (projection.2 = [])
    (ValidationError "STA path database has no path crossing this partition")
  raiseIf (¬ normalizationMatches (expectedNormalization database.paths) database.normalization)
    (ValidationError "STA path database normalization does not match its paths")
  let compressed := compressPaths projection.2
  let cutNets := (assignment.cutNets.map CutRecord.net).dedup
  let covered := (projection.2.flatMap ProjectedPath.cutNets).dedup
  return (
    { schema := STA_PATHS_SCHEMA
      design := assignment.design
      provider := "partition-projected-sta-paths-v1"
      inputSha256 := sourceInputSha256
      normalization := database.normalization
      originalPaths := projection.2.length
      compressedPaths := compressed.length
      paths := compressed },
    { design := assignment.design
      databasePaths := database.paths.length
      projectedPaths := projection.2.length
      compressedPaths := compressed.length
      cutNets := cutNets.length
      coveredCutNets := covered.length
      uncoveredCutNets := (cutNets.filter fun net => net ∉ covered).length })

end EmuFlow.StaProjection
