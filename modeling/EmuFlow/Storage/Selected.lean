import EmuFlow.Storage.Compact

/-!
# EmuIR storage: the readers of selected nets

`selected_net_instance_endpoints` and `selected_net_records` of `emuflow/emuir_compact.py`. They ask
for the nets in batches, with joins of their own, and put what they find under the identifiers.
-/

namespace EmuFlow.Storage

open Check SortedDict SortedSet

/-- `requested[offset : offset + size] for offset in range(0, len(requested), size)` -/
def batchesOf {α : Type} (size : ℕ) (requested : List α) : List (List α) :=
  (List.range ((requested.length + size - 1) / size)).map fun i =>
    (requested.drop (size * i)).take size

/-- The text of an identifier column, which is `TEXT NOT NULL`. -/
def identifier : Sql → String
  | .text s => s
  | _ => ""

/-- `WHERE n.id IN (...)` -/
def inBatch (batch : List String) (id : Sql) : Bool := batch.any fun s => id = .text s

def missingNets {β : Type} (requested : List String) (result : List (String × β)) : List String :=
  requested.filter fun s => (get s result).isNone

def requireFound {β : Type} (requested : List String) (result : List (String × β)) : Result Unit :=
  raiseIf (missingNets requested result ≠ [])
    (.valueError "compact EmuIR is missing requested nets: %s"
      ((missingNets requested result).take 10))

/-! ## owners -/

structure NetOwners where
  drivers : List Sql := []
  sinks : List Sql := []

/-- A row of the query for owners: a net without endpoints has one row, with `NULL`s. -/
structure OwnerRow where
  id : String
  role : Option ℕ
  ordinal : Option ℕ
  instanceId : Sql

/-- `NULL` comes first. -/
def nullFirst : Option ℕ → ℕ
  | none => 0
  | some n => n + 1

/-- `net_records n LEFT JOIN endpoint_records e LEFT JOIN cell_records cell` -/
def joinOwners (store : CompactStore) (net : NetRow) : List OwnerRow :=
  match store.endpoints.filter fun row => row.netSeq = net.seq with
  | [] => [{ id := identifier net.id, role := none, ordinal := none, instanceId := .null }]
  | rows => rows.map fun row =>
    { id := identifier net.id, role := some row.role, ordinal := some row.ordinal,
      instanceId := joinedId store.cells row.instanceSeq }

/-- The query of a batch, `ORDER BY n.id,e.role,e.ordinal`. -/
def ownerRows (store : CompactStore) (batch : List String) : List OwnerRow :=
  sortedBy
    (fun row => lex row.id (lex (nullFirst row.role) (nullFirst row.ordinal)))
    ((store.nets.filter fun net => inBatch batch net.id).flatMap (joinOwners store))

/-- `record[("drivers", "sinks")[role]].append(instance_id)` -/
def NetOwners.append (record : NetOwners) (role : ℕ) (id : Sql) : NetOwners :=
  if role = 0 then { record with drivers := record.drivers ++ [id] }
  else { record with sinks := record.sinks ++ [id] }

def ownersStep (record : Option NetOwners) (row : OwnerRow) : Result NetOwners :=
  match row.role with
  | none => .ok (record.getD {})
  | some role =>
    if row.instanceId = .null then .ok (record.getD {})
    else do
      raiseIf (role ≠ 0 ∧ role ≠ 1) (.valueError "compact EmuIR endpoint has invalid role" [])
      return (record.getD {}).append role row.instanceId

/-- `result[row["id"]]` becomes what a row makes of it. -/
def setStep {β ρ : Type} (id : ρ → String) (step : Option β → ρ → Result β)
    (result : List (String × β)) (row : ρ) : Result (List (String × β)) := do
  let record ← step (get (id row) result) row
  return set (id row) record result

def selectedNetInstanceEndpoints (store : CompactStore) (netIds : List String) :
    Result (List (String × NetOwners)) := do
  let requested := sortedSet netIds
  let result ← (batchesOf 500 requested).foldlM (fun result batch =>
    (ownerRows store batch).foldlM (setStep OwnerRow.id ownersStep) result) []
  requireFound requested result
  return result

/-! ## records -/

/-- The rows of the view `nets` in a batch, `ORDER BY seq`. -/
def selectedRows (store : CompactStore) (batch : List String) : List NetView :=
  (orderBySeq NetView.seq (store.nets.map (NetRow.view store.payloads))).filter fun row =>
    inBatch batch row.id

def selectedNet (row : NetView) : Result Dict := do
  let more ← decodeRecord row.extrasJson "net extras"
  let record := update (display [("id", row.id.toJson), ("cut_class", row.cutClass.toJson),
    ("drivers", .array []), ("sinks", .array [])]) more
  return setPresent "fanout" row.fanout (setPresent "bus_index" row.busIndex
    (setPresent "yosys_bit" row.yosysBit (setPresent "name" row.name record)))

structure SelectedEndpoint where
  id : String
  view : EndpointView

/-- `net_records n JOIN endpoint_records e LEFT JOIN cell_records cell JOIN pin_names pin
JOIN payloads payload`: an endpoint whose pin name or payload has no row is left out. -/
def joinEndpoints (store : CompactStore) (net : NetRow) : List SelectedEndpoint :=
  (store.endpoints.filter fun row => row.netSeq = net.seq ∧
      (Interner.row store.pinNames row.portSeq).isSome = true ∧
      (Interner.row store.payloads row.extrasSeq).isSome = true).map fun row =>
    { id := identifier net.id, view := row.view store.cells store.pinNames store.payloads }

/-- The second query of a batch, `ORDER BY n.id,e.role,e.ordinal`. -/
def endpointRows (store : CompactStore) (batch : List String) : List SelectedEndpoint :=
  sortedBy
    (fun row => lex row.id (lex row.view.role row.view.ordinal))
    ((store.nets.filter fun net => inBatch batch net.id).flatMap (joinEndpoints store))

/-- `result[row["id"]][("drivers", "sinks")[role]].append(...)` -/
def endpointStep (record : Option Dict) (row : SelectedEndpoint) : Result Dict := do
  raiseIf (row.view.role ≠ 0 ∧ row.view.role ≠ 1)
    (.valueError "compact EmuIR endpoint has invalid role" [])
  let record ← lookupOrRaise row.id record
  let value ← endpointRecord row.view
  let key := collection row.view.role
  return set key (.array ((listOf (get key record)).getD [] ++ [value])) record

def selectedNetRecords (store : CompactStore) (netIds : List String) :
    Result (List (String × Dict)) := do
  let requested := sortedSet netIds
  let result ← (batchesOf 500 requested).foldlM (fun result batch => do
    let result ← (selectedRows store batch).foldlM
      (setStep (fun row => identifier row.id) fun _ row => selectedNet row) result
    (endpointRows store batch).foldlM (setStep SelectedEndpoint.id endpointStep) result) []
  requireFound requested result
  return result

end EmuFlow.Storage
