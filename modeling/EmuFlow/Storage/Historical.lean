import EmuFlow.Storage.Compact

/-!
# EmuIR storage: the historical store

The writer and the reader of `emuflow/emuir_storage.py`, with one table for each kind of record,
and `repack_emuir`, which reads such a store and writes a compact one.
-/

namespace EmuFlow.Storage

open Check SortedDict OwnedRows SortedSet

/-! ## tables -/

structure PortRow where
  seq : ℕ
  id : Sql
  name : Sql
  direction : Sql
  width : Sql
  clock : Sql
  reset : Sql
  extrasJson : JsonText

structure PortConstantRow where
  portSeq : ℕ
  ordinal : ℕ
  bit : Sql
  value : Sql
  extrasJson : JsonText

/-- `instances` -/
structure InstanceRow where
  seq : ℕ
  id : Sql
  name : Sql
  type : Sql
  parametersJson : Option JsonText
  attributesJson : Option JsonText
  extrasJson : JsonText

/-- `instance_resources` -/
structure ResourceRow where
  instanceSeq : ℕ
  resource : String
  amount : Sql

structure InstanceConstantRow where
  instanceSeq : ℕ
  ordinal : ℕ
  port : Sql
  bit : Sql
  value : Sql
  extrasJson : JsonText

structure HistoricalStore where
  metadata : Metadata
  ports : List PortRow
  portConstants : List PortConstantRow
  instances : List InstanceRow
  resources : List ResourceRow
  instanceConstants : List InstanceConstantRow
  nets : List NetView
  aliases : List AliasRow
  endpoints : List EndpointView
  clocks : List RecordRow

/-! ## the writer -/

variable (sqlite : Affinity)

def portColumns : List String :=
  ["id", "name", "direction", "width", "clock", "reset", "constant_connections"]

/-- `int(value)` of a flag; a text or a fraction is not one. -/
def pyInt : Json → Result ℤ
  | .bool b => .ok (if b then 1 else 0)
  | .int n => .ok n
  | _ => .error (.raised "TypeError" "int() argument must be a number")

/-- `int(record[key]) if key in record else None` -/
def flagColumn (key : String) (record : Dict) : Result Sql :=
  match get key record with
  | none => .ok .null
  | some value => do integerColumn sqlite (.int (← pyInt value))

def writePortConstant (portSeq : ℕ) (ordinal : ℕ) (value : Json) (s : Unit) :
    Result (PortConstantRow × Unit) := do
  let record ← asRecord value
  let bit ← notNull "port_constants.bit" (do integerColumn sqlite (← getItem "bit" record))
  let constant ← notNull "port_constants.value" (do textColumn sqlite (← getItem "value" record))
  return ({ portSeq := portSeq, ordinal := ordinal, bit := bit, value := constant,
            extrasJson := extras record ["bit", "value"] }, s)

def writePortRow (seq : ℕ) (value : Json) (s : Unit) :
    Result ((PortRow × List PortConstantRow) × Unit) := do
  let record ← asRecord value
  let id ← notNull "ports.id" (do textColumn sqlite (← getItem "id" record))
  let name ← textColumn sqlite (getOrNone "name" record)
  let direction ← notNull "ports.direction" (do textColumn sqlite (← getItem "direction" record))
  let width ← notNull "ports.width" (do integerColumn sqlite (← getItem "width" record))
  let clock ← flagColumn sqlite "clock" record
  let reset ← flagColumn sqlite "reset" record
  let constants ← numberedM (writePortConstant sqlite seq) 0
    (← iterate (constantsOrEmpty record)) ()
  return (({ seq := seq, id := id, name := name, direction := direction, width := width,
             clock := clock, reset := reset, extrasJson := extras record portColumns },
           constants.1), s)

def writeInstanceConstant (instanceSeq : ℕ) (ordinal : ℕ) (value : Json) (s : Unit) :
    Result (InstanceConstantRow × Unit) := do
  let record ← asRecord value
  let port ← notNull "instance_constants.port" (do textColumn sqlite (← getItem "port" record))
  let bit ← notNull "instance_constants.bit" (do integerColumn sqlite (← getItem "bit" record))
  let constant ← notNull "instance_constants.value"
    (do textColumn sqlite (← getItem "value" record))
  return ({ instanceSeq := instanceSeq, ordinal := ordinal, port := port, bit := bit,
            value := constant, extrasJson := extras record ["port", "bit", "value"] }, s)

/-- A row for each item of `resources`, in the order of the names. -/
def writeResource (instanceSeq : ℕ) (item : String × Json) : Result ResourceRow := do
  let amount ← notNull "instance_resources.amount" (integerColumn sqlite item.2)
  return { instanceSeq := instanceSeq, resource := item.1, amount := amount }

structure InstanceRows where
  row : InstanceRow
  resources : List ResourceRow
  constants : List InstanceConstantRow

def writeInstanceRow (seq : ℕ) (value : Json) (s : Unit) : Result (InstanceRows × Unit) := do
  let record ← asRecord value
  let id ← notNull "instances.id" (do textColumn sqlite (← getItem "id" record))
  let name ← textColumn sqlite (getOrNone "name" record)
  let type ← notNull "instances.type" (do textColumn sqlite (← getItem "type" record))
  let resources ← (← asRecord (← getItem "resources" record)).mapM (writeResource sqlite seq)
  let constants ← numberedM (writeInstanceConstant sqlite seq) 0
    (← iterate (constantsOrEmpty record)) ()
  return ({ row := { seq := seq, id := id, name := name, type := type,
                     parametersJson := (get "parameters" record).map json,
                     attributesJson := (get "attributes" record).map json,
                     extrasJson := extras record cellColumns },
            resources := resources, constants := constants.1 }, s)

def writeEndpointRow (netSeq role : ℕ) (ordinal : ℕ) (value : Json) (s : Unit) :
    Result (EndpointView × Unit) := do
  let record ← asRecord value
  let instanceId ← textColumn sqlite (getOrNone "instance" record)
  let port ← notNull "endpoints.port" (do textColumn sqlite (← getItem "port" record))
  let bit ← notNull "endpoints.bit" (do integerColumn sqlite (← getItem "bit" record))
  return ({ netSeq := netSeq, role := role, ordinal := ordinal, instanceSeq := none,
            instanceId := instanceId, port := port, bit := bit,
            extrasJson := some (extras record endpointColumns) }, s)

structure HistoricalNetRows where
  row : NetView
  aliases : List AliasRow
  drivers : List EndpointView
  sinks : List EndpointView

def writeNetRow (seq : ℕ) (value : Json) (s : Unit) : Result (HistoricalNetRows × Unit) := do
  let record ← asRecord value
  let id ← notNull "nets.id" (do textColumn sqlite (← getItem "id" record))
  let name ← textColumn sqlite (getOrNone "name" record)
  let yosysBit ← integerColumn sqlite (getOrNone "yosys_bit" record)
  let busIndex ← integerColumn sqlite (getOrNone "bus_index" record)
  let fanout ← integerColumn sqlite (getOrNone "fanout" record)
  let cutClass ← notNull "nets.cut_class" (do textColumn sqlite (← getItem "cut_class" record))
  let aliases ← numberedM (writeAlias sqlite seq) 0
    (← iterate ((get "aliases" record).getD (.array []))) ()
  let drivers ← numberedM (writeEndpointRow sqlite seq 0) 0
    (← iterate (← getItem "drivers" record)) ()
  let sinks ← numberedM (writeEndpointRow sqlite seq 1) 0
    (← iterate (← getItem "sinks" record)) ()
  return ({ row := { seq := seq, id := id, name := name, yosysBit := yosysBit,
                     busIndex := busIndex, fanout := fanout, cutClass := cutClass,
                     extrasJson := some (extras record netColumns) },
            aliases := aliases.1, drivers := drivers.1, sinks := sinks.1 }, s)

def writeEmuirSqliteV1 (value : Dict) : Result HistoricalStore := do
  let metadata ← writeMetadata sqlite value
  let ports ← numberedM (writePortRow sqlite) 0 (← recordsAt "ports" value) ()
  requireUnique "ports.id" (ports.1.map fun port => port.1.id)
  let instances ← numberedM (writeInstanceRow sqlite) 0 (← recordsAt "instances" value) ()
  requireUnique "instances.id" (instances.1.map fun inst => inst.row.id)
  let nets ← numberedM (writeNetRow sqlite) 0 (← recordsAt "nets" value) ()
  requireUnique "nets.id" (nets.1.map fun net => net.row.id)
  let clocks ← numberedM writeClock 0 (← recordsAt "clocks" value) ()
  return { metadata := metadata, ports := ports.1.map Prod.fst,
           portConstants := ports.1.flatMap Prod.snd,
           instances := instances.1.map InstanceRows.row,
           resources := instances.1.flatMap InstanceRows.resources,
           instanceConstants := instances.1.flatMap InstanceRows.constants,
           nets := nets.1.map HistoricalNetRows.row,
           aliases := nets.1.flatMap HistoricalNetRows.aliases,
           endpoints := nets.1.flatMap fun net => net.drivers ++ net.sinks,
           clocks := clocks.1 }

/-! ## the readers -/

/-- `bool(column)` -/
def Sql.truth : Sql → Bool
  | .null => false
  | .integer n => n ≠ 0
  | .real numeral => numeral ≠ "0.0"
  | .text s => s ≠ ""

/-- `record[key] = bool(row[key])` when the column is not `NULL`. -/
def setFlag (key : String) (column : Sql) (record : Dict) : Dict :=
  if column = .null then record else set key (.bool column.truth) record

def portConstantRecord (child : PortConstantRow) : Result Json := do
  let more ← decodeRecord (some child.extrasJson) "port constant extras"
  return .object (update (display [("bit", child.bit.toJson), ("value", child.value.toJson)]) more)

def portRecord (row : PortRow) (children : List PortConstantRow) : Result Json := do
  let constants ← children.mapM portConstantRecord
  let more ← decodeRecord (some row.extrasJson) "port extras"
  let record := update (display [("id", row.id.toJson), ("direction", row.direction.toJson),
    ("width", row.width.toJson), ("constant_connections", .array constants)]) more
  return .object (setFlag "reset" row.reset (setFlag "clock" row.clock
    (setPresent "name" row.name record)))

def portsLoop : List PortRow → List PortConstantRow → Result (List Json)
  | [], constants => do
    finish (orphaned "port_seq") constants
    return []
  | row :: rows, constants => do
    let children ← take PortConstantRow.portSeq (orphaned "port_seq") constants row.seq
    let record ← portRecord row children.1
    let records ← portsLoop rows children.2
    return record :: records

/-- The ports of `read_emuir_sqlite` and of `source_metadata`. -/
def sourcePorts (store : HistoricalStore) : Result (List Json) :=
  portsLoop (orderBySeq PortRow.seq store.ports)
    (sortedBy (fun row => lex row.portSeq row.ordinal) store.portConstants)

def instanceConstantRecord (child : InstanceConstantRow) : Result Json := do
  let more ← decodeRecord (some child.extrasJson) "instance constant extras"
  return .object (update (display [("port", child.port.toJson), ("bit", child.bit.toJson),
    ("value", child.value.toJson)]) more)

/-- `record[key] = _decode(row[key])` when the column is not `NULL`. -/
def setText (key : String) (text : Option JsonText) (record : Dict) : Dict :=
  match text with
  | none => record
  | some text => set key text.value record

def instanceRecord (row : InstanceRow) (resources : List ResourceRow)
    (children : List InstanceConstantRow) : Result Json := do
  let constants ← children.mapM instanceConstantRecord
  let more ← decodeRecord (some row.extrasJson) "instance extras"
  let record := update (display [("id", row.id.toJson), ("type", row.type.toJson),
    ("resources", .object (display (resources.map fun child =>
      (child.resource, child.amount.toJson)))),
    ("constant_connections", .array constants)]) more
  return .object (setText "attributes" row.attributesJson (setText "parameters" row.parametersJson
    (setPresent "name" row.name record)))

def instancesLoop : List InstanceRow → List ResourceRow → List InstanceConstantRow →
    Result (List Json)
  | [], resources, constants => do
    finish (orphaned "instance_seq") resources
    finish (orphaned "instance_seq") constants
    return []
  | row :: rows, resources, constants => do
    let amounts ← take ResourceRow.instanceSeq (orphaned "instance_seq") resources row.seq
    let children ← take InstanceConstantRow.instanceSeq (orphaned "instance_seq") constants row.seq
    let record ← instanceRecord row amounts.1 children.1
    let records ← instancesLoop rows amounts.2 children.2
    return record :: records

/-- The instances of `read_emuir_sqlite` and of `source_instances`. -/
def sourceInstances (store : HistoricalStore) : Result (List Json) :=
  instancesLoop (orderBySeq InstanceRow.seq store.instances)
    (sortedBy (fun row => lex row.instanceSeq row.resource) store.resources)
    (sortedBy (fun row => lex row.instanceSeq row.ordinal)
      store.instanceConstants)

/-- The record of a net of `read_emuir_sqlite`, whose endpoints stand in two lists from the
start. -/
def netRecord (row : NetView) (names : List AliasRow) (children : List EndpointView) :
    Result Json := do
  forM children fun child => raiseIf (child.role ≠ 0 ∧ child.role ≠ 1)
    (.valueError "EmuIR SQLite invalid endpoint role" [])
  let drivers ← (children.filter fun child => child.role = 0).mapM endpointRecord
  let sinks ← (children.filter fun child => child.role ≠ 0).mapM endpointRecord
  let more ← decodeRecord row.extrasJson "net extras"
  let record := update (display [("id", row.id.toJson), ("cut_class", row.cutClass.toJson),
    ("aliases", .array (names.map fun name => name.name.toJson)),
    ("drivers", .array drivers), ("sinks", .array sinks)]) more
  return .object (setPresent "fanout" row.fanout (setPresent "bus_index" row.busIndex
    (setPresent "yosys_bit" row.yosysBit (setPresent "name" row.name record))))

def netsLoop : List NetView → List EndpointView → List AliasRow → Result (List Json)
  | [], endpoints, aliases => do
    finish (orphaned "net_seq") aliases
    finish (orphaned "net_seq") endpoints
    return []
  | row :: rows, endpoints, aliases => do
    let children ← take EndpointView.netSeq (orphaned "net_seq") endpoints row.seq
    let names ← take AliasRow.netSeq (orphaned "net_seq") aliases row.seq
    let record ← netRecord row names.1 children.1
    let records ← netsLoop rows children.2 names.2
    return record :: records

def readEmuirSqlite (store : HistoricalStore) : Result Dict := do
  let ports ← sourcePorts store
  let instances ← sourceInstances store
  let nets ← netsLoop (orderBySeq NetView.seq store.nets) (orderEndpoints store.endpoints)
    (orderAliases store.aliases)
  return display [("schema", store.metadata.logicalSchema.toJson),
    ("design", store.metadata.designJson.value), ("ports", .array ports),
    ("instances", .array instances), ("nets", .array nets),
    ("clocks", .array (recordRows store.clocks)),
    ("warnings", store.metadata.warningsJson.value)]

def sourceMetadata (store : HistoricalStore) : Result Dict := do
  let ports ← sourcePorts store
  return display [("schema", store.metadata.logicalSchema.toJson),
    ("design", store.metadata.designJson.value), ("warnings", store.metadata.warningsJson.value),
    ("ports", .array ports), ("clocks", .array (recordRows store.clocks))]

def repackEmuir (sizes : Sizes) (store : HistoricalStore) : Result CompactStore := do
  let metadata ← sourceMetadata store
  let instances ← sourceInstances store
  let nets ← compactNets store.nets store.endpoints store.aliases
  writeCompactEmuir sqlite sizes
    (set "nets" (.array nets) (set "instances" (.array instances) metadata))

end EmuFlow.Storage
