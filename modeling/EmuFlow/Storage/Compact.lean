import EmuFlow.Lib.Interner
import EmuFlow.Lib.SortedSet
import EmuFlow.Storage.Json

/-!
# EmuIR storage: values and columns of SQLite

What Python binds to a parameter, what a column of a type makes of it, and what comes back. A text
that `_json` writes is canonical, and `_decode` gives its value back: it is kept as this value.
-/

namespace EmuFlow.Storage

open Check SortedDict SortedSet

inductive Sql where
  | null
  | integer (value : ℤ)
  | real (numeral : String)
  | text (value : String)
  deriving DecidableEq

def isInt64 (n : ℤ) : Bool := -9223372036854775808 ≤ n && n ≤ 9223372036854775807

/-- What Python's `sqlite3` passes for a parameter. -/
def bindValue : Json → Result Sql
  | .null => .ok .null
  | .bool b => .ok (.integer (if b then 1 else 0))
  | .int n =>
    if isInt64 n then .ok (.integer n)
    else .error (.raised "OverflowError" "Python int too large to convert to SQLite INTEGER")
  | .real numeral => .ok (.real numeral)
  | .text s => .ok (.text s)
  | .array _ => .error (.raised "ProgrammingError" "type 'list' is not supported")
  | .object _ => .error (.raised "ProgrammingError" "type 'dict' is not supported")

/-- What Python's `sqlite3` returns for a column. -/
def Sql.toJson : Sql → Json
  | .null => .null
  | .integer n => .int n
  | .real numeral => .real numeral
  | .text s => .text s

/-- The affinities of the columns: how SQLite converts a value of another type before it stores it.
-/
structure Affinity where
  text : Sql → Sql
  integer : Sql → Sql
  text_null : text .null = .null
  text_text : ∀ s, text (.text s) = .text s
  integer_null : integer .null = .null
  integer_integer : ∀ n, integer (.integer n) = .integer n

attribute [simp] Affinity.text_null Affinity.text_text Affinity.integer_null
  Affinity.integer_integer

/-- The affinities on the values they have nothing to convert in, and on integers as text. -/
def Affinity.plain : Affinity where
  text
    | .integer n => .text (toString n)
    | v => v
  integer := id
  text_null := rfl
  text_text _ := rfl
  integer_null := rfl
  integer_integer _ := rfl

variable (sqlite : Affinity)

def textColumn (value : Json) : Result Sql := (bindValue value).map sqlite.text

def integerColumn (value : Json) : Result Sql := (bindValue value).map sqlite.integer

def notNull (column : String) (value : Result Sql) : Result Sql := do
  let value ← value
  raiseIf (value = .null) (.raised "IntegrityError" ("NOT NULL constraint failed: " ++ column))
  return value

variable {sqlite}

@[simp] theorem textColumn_text (s : String) : textColumn sqlite (.text s) = .ok (.text s) := by
  simp [textColumn, bindValue, Except.map]

@[simp] theorem textColumn_null : textColumn sqlite .null = .ok .null := by
  simp [textColumn, bindValue, Except.map]

@[simp] theorem integerColumn_null : integerColumn sqlite .null = .ok .null := by
  simp [integerColumn, bindValue, Except.map]

theorem integerColumn_int {n : ℤ} (h : isInt64 n = true) :
    integerColumn sqlite (.int n) = .ok (.integer n) := by
  simp [integerColumn, bindValue, Except.map, h]

@[simp] theorem notNull_text (column s : String) :
    notNull column (.ok (.text s)) = .ok (.text s) := rfl

@[simp] theorem notNull_integer (column : String) (n : ℤ) :
    notNull column (.ok (.integer n)) = .ok (.integer n) := rfl

/-! ## JSON texts -/

structure JsonText where
  value : Json
  deriving DecidableEq

def json (value : Json) : JsonText := ⟨value⟩

/-- `_extras`: the items under other names than those that have their own columns. -/
def extras (record : Dict) (owned : List String) : JsonText := json (.object (without owned record))

/-- `_decode` of a column, which is `NULL` where a join found no row. -/
def decode (text : Option JsonText) (context : String) : Result Json :=
  match text with
  | some text => .ok text.value
  | none => .error (.valueError "%s: invalid canonical JSON row" [context])

@[simp] theorem decode_json (value : Json) (context : String) :
    decode (some (json value)) context = .ok value := rfl

/-- `**_decode(text, context)` -/
def decodeRecord (text : Option JsonText) (context : String) : Result Dict := do
  asRecord (← decode text context)

@[simp] theorem decodeRecord_json (fields : Dict) (context : String) :
    decodeRecord (some (json (.object fields))) context = .ok fields := rfl

@[simp] theorem decodeRecord_extras (record : Dict) (owned : List String) (context : String) :
    decodeRecord (some (extras record owned)) context = .ok (without owned record) := rfl

def requireUnique (column : String) (values : List Sql) : Result Unit :=
  raiseIf (¬ values.Nodup) (.raised "IntegrityError" ("UNIQUE constraint failed: " ++ column))

def orderBySeq {ρ : Type} (seq : ρ → ℕ) (rows : List ρ) : List ρ := sortedBy seq rows

theorem orderBySeq_of_pairwise {ρ : Type} {seq : ρ → ℕ} {rows : List ρ}
    (h : rows.Pairwise fun a b => seq a < seq b) : orderBySeq seq rows = rows :=
  sortedBy_eq_self (h.imp le_of_lt)

def orphaned (column : String) : EmuFlowError :=
  .valueError "EmuIR SQLite orphaned %s row" [column]

/-!
## EmuIR storage: the compact store

The writer and the readers of `emuflow/emuir_compact.py`: payloads and pin names interned behind a
bounded cache, endpoint owners by number behind another, a flag for a name that is the identifier.
-/

open OwnedRows

/-! ## tables -/

structure Metadata where
  logicalSchema : Sql
  designJson : JsonText
  warningsJson : JsonText

/-- `cell_records` -/
structure CellRow where
  seq : ℕ
  id : Sql
  name : Sql
  flags : ℕ
  type : Sql
  resourcesSeq : ℕ
  parametersSeq : Option ℕ
  attributesSeq : Option ℕ
  constantsSeq : ℕ
  extrasSeq : ℕ

/-- `net_records` -/
structure NetRow where
  seq : ℕ
  id : Sql
  name : Sql
  flags : ℕ
  yosysBit : Sql
  busIndex : Sql
  fanout : Sql
  cutClass : Sql
  extrasSeq : ℕ

/-- `endpoint_records` -/
structure EndpointRow where
  netSeq : ℕ
  role : ℕ
  ordinal : ℕ
  instanceSeq : Option ℕ
  portSeq : ℕ
  bit : Sql
  extrasSeq : ℕ

/-- `alias_records`, and `net_aliases` of both stores. -/
structure AliasRow where
  netSeq : ℕ
  ordinal : ℕ
  name : Sql

/-- `port_records` and `clocks` -/
structure RecordRow where
  seq : ℕ
  recordJson : JsonText

structure CompactStore where
  metadata : Metadata
  payloads : List JsonText
  cells : List CellRow
  nets : List NetRow
  pinNames : List Sql
  endpoints : List EndpointRow
  aliases : List AliasRow
  ports : List RecordRow
  clocks : List RecordRow

/-! ## the writer -/

/-- What `sys.getsizeof` says of the texts. -/
structure Sizes where
  payload : JsonText → ℕ
  pin : Sql → ℕ

/-- The state of the writer: the two vocabularies, and the owners met last. -/
structure Interns where
  payload : Interner.State JsonText := {}
  pin : Interner.State Sql := {}
  owners : List (Json × ℕ) := []

variable (sqlite : Affinity) (sizes : Sizes)

def Interns.callPayload (s : Interns) (value : JsonText) : ℕ × Interns :=
  let called := Interner.call (fun text => sizes.payload text + 128) 8192 (32 * 1024 * 1024)
    s.payload value
  (called.1, { s with payload := called.2 })

/-- `payload(_json(record[key])) if key in record else None` -/
def Interns.callOptional (s : Interns) (value : Option Json) : Option ℕ × Interns :=
  match value with
  | none => (none, s)
  | some value => ((s.callPayload sizes (json value)).1, (s.callPayload sizes (json value)).2)

def Interns.callPin (s : Interns) (name : Sql) : ℕ × Interns :=
  let called := Interner.call (fun text => sizes.pin text + 128) 8192 (32 * 1024 * 1024)
    s.pin name
  (called.1, { s with pin := called.2 })

def cellColumns : List String :=
  ["id", "name", "type", "resources", "parameters", "attributes", "constant_connections"]

def netColumns : List String :=
  ["id", "name", "yosys_bit", "bus_index", "fanout", "cut_class", "aliases", "drivers", "sinks"]

def endpointColumns : List String := ["instance", "port", "bit"]

/-- The constants of a record, `[]` when it names none. -/
def constantsOrEmpty (record : Dict) : Json :=
  (get "constant_connections" record).getD (.array [])

/-- The name column: `NULL` when the flag says that the name is the identifier. -/
def nameColumn (record : Dict) (id : Json) : Result Sql :=
  if getOrNone "name" record = id then .ok .null
  else textColumn sqlite (getOrNone "name" record)

def nameFlag (record : Dict) (id : Json) : ℕ := if getOrNone "name" record = id then 1 else 0

/-- A row of `cell_records`. -/
def writeCell (seq : ℕ) (value : Json) (s : Interns) : Result (CellRow × Interns) := do
  let record ← asRecord value
  let id ← getItem "id" record
  let type ← getItem "type" record
  let resources ← getItem "resources" record
  let idColumn ← notNull "cell_records.id" (textColumn sqlite id)
  let name ← nameColumn sqlite record id
  let typeColumn ← notNull "cell_records.type" (textColumn sqlite type)
  let resourcesCall := s.callPayload sizes (json resources)
  let parametersCall := resourcesCall.2.callOptional sizes (get "parameters" record)
  let attributesCall := parametersCall.2.callOptional sizes (get "attributes" record)
  let constantsCall := attributesCall.2.callPayload sizes (json (constantsOrEmpty record))
  let extrasCall := constantsCall.2.callPayload sizes (extras record cellColumns)
  return ({ seq := seq, id := idColumn, name := name, flags := nameFlag record id,
            type := typeColumn, resourcesSeq := resourcesCall.1,
            parametersSeq := parametersCall.1, attributesSeq := attributesCall.1,
            constantsSeq := constantsCall.1, extrasSeq := extrasCall.1 }, extrasCall.2)

/-- `SELECT seq FROM cell_records WHERE id=?` -/
def findOwner (cells : List CellRow) (id : Sql) : Option ℕ :=
  (cells.find? fun cell => cell.id = id).map CellRow.seq

def owner (cells : List CellRow) (identity : Json) (owners : List (Json × ℕ)) :
    Result (ℕ × List (Json × ℕ)) :=
  match owners.lookup identity with
  | some n => .ok (n, owners)
  | none => do
    let id ← textColumn sqlite identity
    let n ← match findOwner cells id with
      | none => .error (.valueError "EmuIR endpoint refers to absent instance %r" [])
      | some n => .ok n
    let owners := owners ++ [(identity, n)]
    return (n, if owners.length > 8192 then owners.tail else owners)

/-- The owner column of an endpoint, `NULL` for a top-level port. -/
def ownerColumn (cells : List CellRow) (record : Dict) (s : Interns) :
    Result (Option ℕ × Interns) :=
  if getOrNone "instance" record = .null then .ok (none, s)
  else do
    let found ← owner sqlite cells (getOrNone "instance" record) s.owners
    return (some found.1, { s with owners := found.2 })

/-- A row of `endpoint_records`. -/
def writeEndpoint (cells : List CellRow) (netSeq role : ℕ) (ordinal : ℕ) (value : Json)
    (s : Interns) : Result (EndpointRow × Interns) := do
  let record ← asRecord value
  let owner ← ownerColumn sqlite cells record s
  let port ← notNull "pin_names.name" (do textColumn sqlite (← getItem "port" record))
  let bit ← notNull "endpoint_records.bit" (do integerColumn sqlite (← getItem "bit" record))
  let pinCall := owner.2.callPin sizes port
  let extrasCall := pinCall.2.callPayload sizes (extras record endpointColumns)
  return ({ netSeq := netSeq, role := role, ordinal := ordinal, instanceSeq := owner.1,
            portSeq := pinCall.1, bit := bit, extrasSeq := extrasCall.1 }, extrasCall.2)

/-- A row of `alias_records`. -/
def writeAlias {σ : Type} (netSeq : ℕ) (ordinal : ℕ) (name : Json) (s : σ) :
    Result (AliasRow × σ) := do
  let column ← notNull "alias_records.alias" (textColumn sqlite name)
  return ({ netSeq := netSeq, ordinal := ordinal, name := column }, s)

structure NetRows where
  row : NetRow
  aliases : List AliasRow
  drivers : List EndpointRow
  sinks : List EndpointRow

def writeNet (cells : List CellRow) (seq : ℕ) (value : Json) (s : Interns) :
    Result (NetRows × Interns) := do
  let record ← asRecord value
  let id ← getItem "id" record
  let cutClass ← getItem "cut_class" record
  let idColumn ← notNull "net_records.id" (textColumn sqlite id)
  let name ← nameColumn sqlite record id
  let yosysBit ← integerColumn sqlite (getOrNone "yosys_bit" record)
  let busIndex ← integerColumn sqlite (getOrNone "bus_index" record)
  let fanout ← integerColumn sqlite (getOrNone "fanout" record)
  let cutClassColumn ← notNull "net_records.cut_class" (textColumn sqlite cutClass)
  let extrasCall := s.callPayload sizes (extras record netColumns)
  let names ← iterate ((get "aliases" record).getD (.array []))
  let aliases ← numberedM (writeAlias sqlite seq) 0 names extrasCall.2
  let drivers ← numberedM (writeEndpoint sqlite sizes cells seq 0) 0
    (← iterate (← getItem "drivers" record)) aliases.2
  let sinks ← numberedM (writeEndpoint sqlite sizes cells seq 1) 0
    (← iterate (← getItem "sinks" record)) drivers.2
  return ({ row := { seq := seq, id := idColumn, name := name, flags := nameFlag record id,
                     yosysBit := yosysBit, busIndex := busIndex, fanout := fanout,
                     cutClass := cutClassColumn, extrasSeq := extrasCall.1 },
            aliases := aliases.1, drivers := drivers.1, sinks := sinks.1 }, sinks.2)

/-- A row of `port_records`: the whole record, its constants `[]` when it names none. -/
def writePort (seq : ℕ) (value : Json) (s : Unit) : Result (RecordRow × Unit) := do
  let record ← asRecord value
  return (⟨seq, json (.object (set "constant_connections" (constantsOrEmpty record) record))⟩, s)

def writeClock (seq : ℕ) (value : Json) (s : Unit) : Result (RecordRow × Unit) :=
  .ok (⟨seq, json value⟩, s)

/-- `value.get(name, [])` in a `for` loop. -/
def recordsAt (name : String) (value : Dict) : Result (List Json) :=
  iterate ((get name value).getD (.array []))

/-- The rows of `metadata` that a reader looks at. -/
def writeMetadata (value : Dict) : Result Metadata := do
  let schema ← notNull "metadata.value" (textColumn sqlite (getOrNone "schema" value))
  return { logicalSchema := schema, designJson := json (getOrNone "design" value),
           warningsJson := json ((get "warnings" value).getD (.array [])) }

def writeCompactEmuir (value : Dict) : Result CompactStore := do
  let metadata ← writeMetadata sqlite value
  let ports ← numberedM writePort 0 (← recordsAt "ports" value) ()
  let cells ← numberedM (writeCell sqlite sizes) 0 (← recordsAt "instances" value) {}
  requireUnique "cell_records.id" (cells.1.map CellRow.id)
  let nets ← numberedM (writeNet sqlite sizes cells.1) 0 (← recordsAt "nets" value)
    { cells.2 with owners := [] }
  requireUnique "net_records.id" (nets.1.map fun net => net.row.id)
  let clocks ← numberedM writeClock 0 (← recordsAt "clocks" value) ()
  return { metadata := metadata, payloads := nets.2.payload.table, cells := cells.1,
           nets := nets.1.map NetRows.row, pinNames := nets.2.pin.table,
           endpoints := nets.1.flatMap fun net => net.drivers ++ net.sinks,
           aliases := nets.1.flatMap NetRows.aliases, ports := ports.1, clocks := clocks.1 }

/-! ## the readers -/

/-- `record[key] = row[key]` when the column is not `NULL`. -/
def setPresent (key : String) (column : Sql) (record : Dict) : Dict :=
  if column = .null then record else set key column.toJson record

/-- `record[key] = _decode(...)` when the row has a payload under the key. -/
def setDecoded (key : String) (seq : Option ℕ) (payloads : List JsonText) (record : Dict) : Dict :=
  match seq.bind (Interner.row payloads) with
  | none => record
  | some text => set key text.value record

def setName (flags : ℕ) (id name : Sql) (record : Dict) : Dict :=
  if flags % 2 = 1 then set "name" id.toJson record else setPresent "name" name record

/-- A record of `compact_instances`. -/
def compactInstance (payloads : List JsonText) (row : CellRow) : Result Json := do
  let resources ← decode (Interner.row payloads row.resourcesSeq) "resources"
  let constants ← decode (Interner.row payloads row.constantsSeq) "constants"
  let more ← decodeRecord (Interner.row payloads row.extrasSeq) "instance extras"
  let facts := update (display [("resources", resources), ("constant_connections", constants)]) more
  let facts := setDecoded "parameters" row.parametersSeq payloads facts
  let facts := setDecoded "attributes" row.attributesSeq payloads facts
  let record := update (display [("id", row.id.toJson), ("type", row.type.toJson)]) facts
  return .object (setName row.flags row.id row.name record)

/-- A row of the view `nets`, which is the table of that name in the historical store. -/
structure NetView where
  seq : ℕ
  id : Sql
  name : Sql
  yosysBit : Sql
  busIndex : Sql
  fanout : Sql
  cutClass : Sql
  extrasJson : Option JsonText

/-- A row of the view `endpoints`; in the historical store it has no column `instance_seq`. -/
structure EndpointView where
  netSeq : ℕ
  role : ℕ
  ordinal : ℕ
  instanceSeq : Option (Option ℕ)
  instanceId : Sql
  port : Sql
  bit : Sql
  extrasJson : Option JsonText

def NetRow.view (payloads : List JsonText) (row : NetRow) : NetView where
  seq := row.seq
  id := row.id
  name := if row.flags % 2 = 1 then row.id else row.name
  yosysBit := row.yosysBit
  busIndex := row.busIndex
  fanout := row.fanout
  cutClass := row.cutClass
  extrasJson := Interner.row payloads row.extrasSeq

/-- The identifier a `LEFT JOIN` with `cell_records` finds. -/
def joinedId (cells : List CellRow) (seq : Option ℕ) : Sql :=
  match seq.bind fun n => cells.find? fun cell => cell.seq = n with
  | none => .null
  | some cell => cell.id

def EndpointRow.view (cells : List CellRow) (pinNames : List Sql) (payloads : List JsonText)
    (row : EndpointRow) : EndpointView where
  netSeq := row.netSeq
  role := row.role
  ordinal := row.ordinal
  instanceSeq := some row.instanceSeq
  instanceId := joinedId cells row.instanceSeq
  port := (Interner.row pinNames row.portSeq).getD .null
  bit := row.bit
  extrasJson := Interner.row payloads row.extrasSeq

def endpointRecord (child : EndpointView) : Result Json := do
  let more ← decodeRecord child.extrasJson "endpoint extras"
  return .object (update (display [("instance", child.instanceId.toJson),
    ("port", child.port.toJson), ("bit", child.bit.toJson)]) more)

def collection (role : ℕ) : String := if role = 0 then "drivers" else "sinks"

def appendEndpoint (record : Dict) (child : EndpointView) : Result Dict := do
  raiseIf (child.role ≠ 0 ∧ child.role ≠ 1) (.valueError "EmuIR SQLite invalid endpoint role" [])
  raiseIf ((child.instanceSeq.bind id).isSome = true ∧ child.instanceId = .null)
    (.valueError "EmuIR SQLite orphaned endpoint instance" [])
  let value ← endpointRecord child
  let key := collection child.role
  return set key (.array ((listOf (get key record)).getD [] ++ [value])) record

/-- A record of `compact_nets`. -/
def compactNet (row : NetView) (names : List AliasRow) (children : List EndpointView) :
    Result Json := do
  let more ← decodeRecord row.extrasJson "net extras"
  let record := update (display [("id", row.id.toJson), ("cut_class", row.cutClass.toJson),
    ("drivers", .array []), ("sinks", .array []),
    ("aliases", .array (names.map fun name => name.name.toJson))]) more
  let record ← children.foldlM appendEndpoint record
  return .object (setPresent "fanout" row.fanout (setPresent "bus_index" row.busIndex
    (setPresent "yosys_bit" row.yosysBit (setPresent "name" row.name record))))

def compactNetsLoop : List NetView → List EndpointView → List AliasRow → Result (List Json)
  | [], endpoints, aliases => do
    finish (orphaned "net_seq") endpoints
    finish (orphaned "net_seq") aliases
    return []
  | row :: rows, endpoints, aliases => do
    let names ← take AliasRow.netSeq (orphaned "net_seq") aliases row.seq
    let children ← take EndpointView.netSeq (orphaned "net_seq") endpoints row.seq
    let record ← compactNet row names.1 children.1
    let records ← compactNetsLoop rows children.2 names.2
    return record :: records

/-- `ORDER BY net_seq,role,ordinal` -/
def orderEndpoints (rows : List EndpointView) : List EndpointView :=
  sortedBy (fun row => lex row.netSeq (lex row.role row.ordinal)) rows

/-- `ORDER BY net_seq,ordinal` -/
def orderAliases (rows : List AliasRow) : List AliasRow :=
  sortedBy (fun row => lex row.netSeq row.ordinal) rows

def compactNets (nets : List NetView) (endpoints : List EndpointView) (aliases : List AliasRow) :
    Result (List Json) :=
  compactNetsLoop (orderBySeq NetView.seq nets) (orderEndpoints endpoints) (orderAliases aliases)

/-- `_decode(row[0], ...)` for the rows in order. -/
def recordRows (rows : List RecordRow) : List Json :=
  (orderBySeq RecordRow.seq rows).map fun row => row.recordJson.value

def readCompactEmuir (store : CompactStore) : Result Dict := do
  let instances ← (orderBySeq CellRow.seq store.cells).mapM (compactInstance store.payloads)
  let nets ← compactNets (store.nets.map (NetRow.view store.payloads))
    (store.endpoints.map (EndpointRow.view store.cells store.pinNames store.payloads))
    store.aliases
  return display [("schema", store.metadata.logicalSchema.toJson),
    ("design", store.metadata.designJson.value), ("warnings", store.metadata.warningsJson.value),
    ("ports", .array (recordRows store.ports)), ("clocks", .array (recordRows store.clocks)),
    ("instances", .array instances), ("nets", .array nets)]

end EmuFlow.Storage
