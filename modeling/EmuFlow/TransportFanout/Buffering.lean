import EmuFlow.EmuIR
import EmuFlow.Lib.SortedSet

/-!
# Buffer trees for high-fanout transport nets

`emuflow/transport_fanout.py`: the sinks of a net are put below LUT1 buffers, at most `max_fanout`
each, level after level until as many drivers are left. The value is changed in place, so a run has
a value to show also when it raises.
-/

namespace EmuFlow.TransportFanout

open Check SortedSet

/-! ## the value -/

structure Instance where
  id : String
  type : String
  resources : ResourceVector
  parameters : List (String × String)
  attributes : List (String × String)
  deriving DecidableEq

structure Net where
  id : String
  cutClass : CutClass
  drivers : List Endpoint
  sinks : List Endpoint
  fanout : Option ℕ
  /-- `fanout_buffer_owner`, of an added net. -/
  owner : Option String
  deriving DecidableEq

/-- `transport_ir.value`. -/
structure TransportIR where
  ports : List String
  instances : List Instance
  nets : List Net
  deriving DecidableEq

def validateUniqueIds (context : String) : ℕ → List String → List String → Result Unit
  | _, _, [] => .ok ()
  | index, seen, id :: ids => do
    raiseIf (id = "")
      (.validation "%s[%s].id: expected a non-empty string" [context, toString index])
    raiseIf (id ∈ seen)
      (.validation "%s[%s].id: duplicate identifier %r" [context, toString index, id])
    validateUniqueIds context (index + 1) (id :: seen) ids

def requireOwner (ir : TransportIR) (context : List String) (endpoint : Endpoint) : Result Unit :=
  match endpoint.inst with
  | none =>
    raiseIf (endpoint.port ∉ ir.ports)
      (.validation "nets[%s].%s[%s]: top-level port %r does not exist" (context ++ [endpoint.port]))
  | some id =>
    raiseIf (id ∉ ir.instances.map Instance.id)
      (.validation "nets[%s].%s[%s]: instance %r does not exist" (context ++ [id]))

def validateEndpoint (ir : TransportIR) (context : List String) (endpoint : Endpoint) :
    Result Unit := do
  requireOwner ir context endpoint
  raiseIf (endpoint.port = "")
    (.validation "nets[%s].%s[%s].port: expected a non-empty string" context)

/-- `EmuIR.validate`, as far as the types leave something to check. -/
def validate (ir : TransportIR) : Result Unit := do
  validateUniqueIds "ports" 0 [] ir.ports
  validateUniqueIds "instances" 0 [] (ir.instances.map Instance.id)
  validateUniqueIds "nets" 0 [] (ir.nets.map Net.id)
  forM ir.instances.zipIdx fun inst =>
    raiseIf (inst.1.type = "")
      (.validation "instances[%s].type: expected a non-empty string" [toString inst.2])
  forM ir.nets.zipIdx fun net => do
    forM net.1.drivers.zipIdx fun endpoint =>
      validateEndpoint ir [toString net.2, "drivers", toString endpoint.2] endpoint.1
    forM net.1.sinks.zipIdx fun endpoint =>
      validateEndpoint ir [toString net.2, "sinks", toString endpoint.2] endpoint.1

/-! ## one buffer -/

/-- `f"{number:0{width}d}"` -/
def zeroPadded (width number : ℕ) : String :=
  let digits := toString number
  "".pushn '0' (width - digits.length) ++ digits

def stem (candidate level group : ℕ) : String :=
  "$emuflow_transport_fanout$" ++ zeroPadded 6 candidate ++ "$l" ++ zeroPadded 2 level ++ "$g" ++
    zeroPadded 6 group

def cellId (candidate level group : ℕ) : String := stem candidate level group ++ "$buf"

def outputNetId (candidate level group : ℕ) : String := stem candidate level group ++ "$net"

def endpointKey (endpoint : Endpoint) : String ×ₗ String ×ₗ ℕ :=
  lex (endpoint.inst.getD "") (lex endpoint.port endpoint.bit)

def bufferInstance (name owner : String) (level : ℕ) : Instance where
  id := name
  type := "$lut"
  resources := { lut := 1 }
  parameters := [("LUT", "10"), ("WIDTH", "00000000000000000000000000000001")]
  attributes := [("emuflow_high_fanout_buffer", "transport-balanced-tree-v1"),
      ("emuflow_high_fanout_owner", owner), ("emuflow_high_fanout_level", toString level)]

def outputPin (cell : String) : Endpoint := { inst := some cell, port := "Y", bit := 0 }

def inputPin (cell : String) : Endpoint := { inst := some cell, port := "A", bit := 0 }

def bufferNet (cell net owner : String) (group : List Endpoint) : Net where
  id := net
  cutClass := .combinational
  drivers := [outputPin cell]
  sinks := group
  fanout := some group.length
  owner := some owner

/-! ## the trees -/

structure Growth where
  occupiedInstances : List String
  occupiedNets : List String
  addedInstances : List Instance := []
  addedNets : List Net := []

structure Record where
  net : String
  netIndex : ℕ
  originalFanout : ℕ
  rootFanout : ℕ
  levels : ℕ
  levelBufferCounts : List ℕ
  bufferCells : ℕ

/-- `[sinks[offset : offset + max_fanout] for offset in range(0, len(sinks), max_fanout)]` -/
def groups {α : Type} (maxFanout : ℕ) (sinks : List α) : List (List α) :=
  (List.range ((sinks.length + maxFanout - 1) / maxFanout)).map fun index =>
    (sinks.drop (index * maxFanout)).take maxFanout

def addBuffer (owner : String) (candidate level : ℕ) (state : Growth × List Endpoint)
    (group : List Endpoint × ℕ) : Result (Growth × List Endpoint) := do
  let growth := state.1
  let cell := cellId candidate level group.2
  let net := outputNetId candidate level group.2
  raiseIf (cell ∈ growth.occupiedInstances ∨ net ∈ growth.occupiedNets)
    (.validation "transport fanout buffer identifier collision for %r" [owner])
  return ({ occupiedInstances := growth.occupiedInstances ++ [cell]
            occupiedNets := growth.occupiedNets ++ [net]
            addedInstances := growth.addedInstances ++ [bufferInstance cell owner level]
            addedNets := growth.addedNets ++ [bufferNet cell net owner group.1] },
    state.2 ++ [inputPin cell])

/-- The state of the `while` loop of a candidate. -/
structure Tree where
  growth : Growth
  downstreamSinks : List Endpoint
  level : ℕ := 0
  levelWidths : List ℕ := []

/-- `while len(downstream_sinks) > max_fanout`; a turn leaves fewer sinks, so that as many turns
as there are sinks suffice. -/
def growLevels (owner : String) (maxFanout candidate : ℕ) : ℕ → Tree → Result Tree
  | 0, tree => .ok tree
  | turns + 1, tree =>
    if tree.downstreamSinks.length ≤ maxFanout then .ok tree
    else do
      let level := (groups maxFanout tree.downstreamSinks).zipIdx
      let (growth, upstreamSinks) ← level.foldlM (addBuffer owner candidate tree.level)
        (tree.growth, [])
      growLevels owner maxFanout candidate turns
        { growth := growth, downstreamSinks := upstreamSinks, level := tree.level + 1
          levelWidths := tree.levelWidths ++ [upstreamSinks.length] }

def bufferCandidate (maxFanout candidate : ℕ) (growth : Growth) (net : Net) (netIndex : ℕ) :
    Result (Net × Growth × Record) := do
  let originalSinks := sortedBy endpointKey net.sinks
  let tree ← growLevels net.id maxFanout candidate originalSinks.length
    { growth := growth, downstreamSinks := originalSinks }
  let leafNets := (tree.growth.addedNets.drop growth.addedNets.length).take
    (tree.levelWidths.headD 0)
  raiseIf (sortedBy endpointKey (leafNets.flatMap Net.sinks) ≠ originalSinks)
    (.validation "transport fanout buffering changed endpoints of %r" [net.id])
  return ({ net with
              sinks := tree.downstreamSinks
              fanout := some tree.downstreamSinks.length },
    tree.growth,
    { net := net.id
      netIndex := netIndex
      originalFanout := originalSinks.length
      rootFanout := tree.downstreamSinks.length
      levels := tree.level
      levelBufferCounts := tree.levelWidths
      bufferCells := tree.levelWidths.sum })

def Net.buffered (net : Net) : Bool :=
  net.cutClass ≠ .clock && net.cutClass ≠ .reset && net.drivers.length = 1

def isCandidate (maxFanout : ℕ) (net : Net) : Bool :=
  maxFanout < net.sinks.length && net.buffered

def candidates (maxFanout : ℕ) (nets : List Net) : List (Net × ℕ) :=
  nets.zipIdx.filter fun entry => isCandidate maxFanout entry.1

/-- The state of the loop over the candidates; `nets` is the value's own list. -/
structure Progress where
  nets : List Net
  growth : Growth
  records : List Record := []

/-- The loop over the candidates. One that raises leaves the nets as the candidates before it have
made them. -/
def bufferCandidates (maxFanout : ℕ) : ℕ → List (Net × ℕ) → Progress →
    Progress × Result Unit
  | _, [], progress => (progress, .ok ())
  | candidate, (net, index) :: rest, progress =>
    match bufferCandidate maxFanout candidate progress.growth net index with
    | .error e => (progress, .error e)
    | .ok (net, growth, record) =>
      bufferCandidates maxFanout (candidate + 1) rest
        { nets := progress.nets.set index net, growth := growth
          records := progress.records ++ [record] }

/-! ## the run -/

def transportFanoutBufferingSchema : String := "emuflow.transport-fanout-buffering/v1"

structure Policy where
  scope : String := "synthesized-transport-only"
  topology : String := "balanced-lut1-tree"
  maximumFanout : ℕ
  excludedCutClasses : List String := ["clock", "reset"]
  placement : String := "before-pack-and-place"

structure Summary where
  bufferedNets : ℕ
  bufferCells : ℕ
  addedNets : ℕ
  maximumOriginalFanout : ℕ
  maximumResultFanout : ℕ

structure Report where
  schema : String := transportFanoutBufferingSchema
  status : String := "pass"
  policy : Policy
  summary : Summary
  nets : List Record

/-- The value after the run, and what the run returned or raised. -/
structure Outcome where
  value : TransportIR
  result : Result Report

def makeReport (maxFanout : ℕ) (progress : Progress) (nets : List Net) : Report where
  policy := { maximumFanout := maxFanout }
  summary :=
    { bufferedNets := progress.records.length
      bufferCells := progress.growth.addedInstances.length
      addedNets := progress.growth.addedNets.length
      maximumOriginalFanout := maxOrZero (progress.records.map Record.originalFanout)
      maximumResultFanout :=
        maxOrZero ((nets.filter fun net => net.cutClass ≠ .clock && net.cutClass ≠ .reset).map
          fun net => net.sinks.length) }
  nets := progress.records

def bufferTransportHighFanoutNets (ir : TransportIR) (maxFanout : ℕ) : Outcome :=
  if maxFanout < 2 then
    { value := ir
      result := .error (ValidationError "transport fanout maximum must be an integer >= 2") }
  else
    let (progress, result) := bufferCandidates maxFanout 0 (candidates maxFanout ir.nets)
      { nets := ir.nets
        growth :=
          { occupiedInstances := ir.instances.map Instance.id
            occupiedNets := ir.nets.map Net.id } }
    match result with
    | .error e => { value := { ir with nets := progress.nets }, result := .error e }
    | .ok () =>
      let value :=
        { ir with
          instances := ir.instances ++ progress.growth.addedInstances
          nets := progress.nets ++ progress.growth.addedNets }
      { value := value
        result := do
          validate value
          return makeReport maxFanout progress value.nets }

end EmuFlow.TransportFanout
