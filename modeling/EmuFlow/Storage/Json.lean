import Mathlib.Data.String.Basic
import EmuFlow.Errors
import EmuFlow.Lib.OwnedRows
import EmuFlow.Lib.SortedDict

/-!
# EmuIR storage: JSON values and validation

The values an EmuIR is made of, and `EmuIR.validate` of `emuflow/ir.py` on them. A Python `dict` is
the list of its items in the order of the keys, which is the order `_json` writes them in.
-/

namespace EmuFlow.Storage

open Check SortedDict

/-! ## values -/

/-- A JSON value; a number with a fraction or an exponent is kept as its numeral. -/
inductive Json where
  | null
  | bool (value : Bool)
  | int (value : ℤ)
  | real (numeral : String)
  | text (value : String)
  | array (items : List Json)
  | object (fields : List (String × Json))

abbrev Dict := List (String × Json)

mutual

def Json.beq : Json → Json → Bool
  | .null, .null => true
  | .bool a, .bool b => a = b
  | .int a, .int b => a = b
  | .real a, .real b => a = b
  | .text a, .text b => a = b
  | .array a, .array b => beqItems a b
  | .object a, .object b => beqFields a b
  | _, _ => false

def beqItems : List Json → List Json → Bool
  | [], [] => true
  | a :: l, b :: m => a.beq b && beqItems l m
  | _, _ => false

def beqFields : Dict → Dict → Bool
  | [], [] => true
  | a :: l, b :: m => a.1 = b.1 && a.2.beq b.2 && beqFields l m
  | _, _ => false

end

mutual

theorem Json.beq_iff : ∀ {a b : Json}, a.beq b = true ↔ a = b
  | .null, b => by cases b <;> simp [Json.beq]
  | .bool _, b => by cases b <;> simp [Json.beq]
  | .int _, b => by cases b <;> simp [Json.beq]
  | .real _, b => by cases b <;> simp [Json.beq]
  | .text _, b => by cases b <;> simp [Json.beq]
  | .array l, b => by
    cases b with
    | array m => simp [Json.beq, beqItems_iff (l := l) (m := m)]
    | _ => simp [Json.beq]
  | .object l, b => by
    cases b with
    | object m => simp [Json.beq, beqFields_iff (l := l) (m := m)]
    | _ => simp [Json.beq]

theorem beqItems_iff : ∀ {l m : List Json}, beqItems l m = true ↔ l = m
  | [], m => by cases m <;> simp [beqItems]
  | a :: l, m => by
    cases m with
    | nil => simp [beqItems]
    | cons b m => simp [beqItems, Json.beq_iff (a := a) (b := b), beqItems_iff (l := l) (m := m)]

theorem beqFields_iff : ∀ {l m : Dict}, beqFields l m = true ↔ l = m
  | [], m => by cases m <;> simp [beqFields]
  | (k, a) :: l, m => by
    cases m with
    | nil => simp [beqFields]
    | cons b m =>
      obtain ⟨k', b⟩ := b
      simp [beqFields, Json.beq_iff (a := a) (b := b), beqFields_iff (l := l) (m := m)]

end

instance : DecidableEq Json := fun _ _ => decidable_of_iff _ Json.beq_iff

mutual

/-- Every `dict` of the value stands in the order of its keys. -/
def Json.canonical : Json → Bool
  | .array items => canonicalItems items
  | .object fields => decide (Ascending fields) && canonicalFields fields
  | _ => true

def canonicalItems : List Json → Bool
  | [] => true
  | item :: items => item.canonical && canonicalItems items

def canonicalFields : Dict → Bool
  | [] => true
  | field :: fields => field.2.canonical && canonicalFields fields

end

theorem canonicalItems_iff {items : List Json} :
    canonicalItems items = true ↔ ∀ item ∈ items, item.canonical = true := by
  induction items with
  | nil => simp [canonicalItems]
  | cons item items ih => simp [canonicalItems, ih]

theorem canonical_of_get {fields : Dict} {key : String} {value : Json}
    (h : canonicalFields fields = true) (hg : get key fields = some value) :
    value.canonical = true := by
  induction fields with
  | nil => cases hg
  | cons field fields ih =>
    rw [canonicalFields, Bool.and_eq_true] at h
    rw [get_cons] at hg
    split_ifs at hg
    · exact Option.some.inj hg ▸ h.1
    · exact ih h.2 hg

/-! ## Python's views of a value -/

/-- `isinstance(value, str)`. -/
def textOf : Option Json → Option String
  | some (.text s) => some s
  | _ => none

/-- `isinstance(value, int)`, and not `bool`. -/
def intOf : Option Json → Option ℤ
  | some (.int n) => some n
  | _ => none

/-- `isinstance(value, list)`. -/
def listOf : Option Json → Option (List Json)
  | some (.array items) => some items
  | _ => none

/-- `isinstance(value, dict)`. -/
def dictOf : Option Json → Option Dict
  | some (.object fields) => some fields
  | _ => none

variable {value : Option Json}

@[simp] theorem textOf_eq_some {s : String} : textOf value = some s ↔ value = some (.text s) := by
  unfold textOf
  split <;> simp_all

@[simp] theorem intOf_eq_some {n : ℤ} : intOf value = some n ↔ value = some (.int n) := by
  unfold intOf
  split <;> simp_all

@[simp] theorem listOf_eq_some {l : List Json} : listOf value = some l ↔
    value = some (.array l) := by
  unfold listOf
  split <;> simp_all

@[simp] theorem dictOf_eq_some {d : Dict} : dictOf value = some d ↔ value = some (.object d) := by
  unfold dictOf
  split <;> simp_all

/-- `value.get(key)`, with `None` for an absent key. -/
def getOrNone (key : String) (record : Dict) : Json := (get key record).getD .null

/-- `mapping[key]`. -/
def getItem (key : String) (record : Dict) : Result Json := lookupOrRaise key (get key record)

def asRecord : Json → Result Dict
  | .object fields => .ok fields
  | _ => .error (.raised "TypeError" "object is not a mapping")

/-- What a `for` loop over the value visits. -/
def iterate : Json → Result (List Json)
  | .array items => .ok items
  | .object fields => .ok (fields.map fun field => .text field.1)
  | .text s => .ok (s.toList.map fun c => .text c.toString)
  | _ => .error (.raised "TypeError" "object is not iterable")

/-!
## EmuIR storage: `EmuIR.validate`

The checks in the order of the source, over the items of the value's `dict`, and what a value that
passes has: arrays of records whose identifiers are unique texts, and under the names the checks
look at values of the types they ask for.
-/

open OwnedRows

/-! ## the checks -/

def orRaise {α : Type} (err : EmuFlowError) : Option α → Result α
  | some a => .ok a
  | none => .error err

@[simp] theorem orRaise_eq_ok {α : Type} {err : EmuFlowError} {o : Option α} {a : α} :
    orRaise err o = .ok a ↔ o = some a := by
  cases o <;> simp [orRaise]

def emuirSchema : String := "emuflow.emuir/v1"

def validDirections : List String := ["input", "output", "inout", "unknown"]

def validCutClasses : List String :=
  ["clock", "reset", "primary_input", "register_output", "register_input", "combinational",
    "multi_driver", "undriven"]

def constantValues : List String := ["0", "1", "x", "z"]

def resourceFields : List String :=
  ["lut", "ff", "bram", "dsp", "carry", "bram18k", "uram288", "dsp48", "carry8", "io", "clock",
    "other"]

def indexed (context : String) (index : ℕ) : String := context ++ "[" ++ toString index ++ "]"

def uniqueId (context : String) (index : ℕ) (seen : List String) (item : Json) : Result String := do
  let record ← orRaise (.validation "%s: expected an object" [indexed context index])
    (dictOf (some item))
  let id ← orRaise (.validation "%s.id: expected a non-empty string" [indexed context index])
    (textOf (get "id" record))
  raiseIf (id = "") (.validation "%s.id: expected a non-empty string" [indexed context index])
  raiseIf (id ∈ seen) (.validation "%s.id: duplicate identifier %r" [indexed context index, id])
  return id

def validateUniqueIds (context : String) : ℕ → List String → List Json → Result (List String)
  | _, seen, [] => .ok seen
  | index, seen, item :: items => do
    let id ← uniqueId context index seen item
    validateUniqueIds context (index + 1) (seen ++ [id]) items

/-- The constants of an item, `[]` when it has none. -/
def constantConnections (context : String) (record : Dict) : Result (List Json) :=
  match get "constant_connections" record with
  | none => .ok []
  | some value => orRaise (.validation "%s.constant_connections: expected an array" [context])
      (listOf (some value))

def validatePortConstants (context : String) (width : ℤ) : ℕ → List ℤ → List Json → Result Unit
  | _, _, [] => .ok ()
  | index, seenBits, connection :: connections => do
    let context' := indexed (context ++ ".constant_connections") index
    let record ← orRaise (.validation "%s: expected an object" [context'])
      (dictOf (some connection))
    let bit ← orRaise (.validation "%s.bit: invalid port bit" [context'])
      (intOf (get "bit" record))
    raiseIf (bit < 0 ∨ bit ≥ width ∨ bit ∈ seenBits)
      (.validation "%s.bit: invalid port bit" [context'])
    let value ← orRaise (.validation "%s.value: expected 0, 1, x, or z" [context'])
      (textOf (get "value" record))
    raiseIf (value ∉ constantValues) (.validation "%s.value: expected 0, 1, x, or z" [context'])
    validatePortConstants context width (index + 1) (bit :: seenBits) connections

def validatePort (port : Json) (index : ℕ) : Result Unit := do
  let context := indexed "ports" index
  let record ← asRecord port
  let direction ← orRaise (.validation "%s.direction: expected one of %s" [context])
    (textOf (get "direction" record))
  raiseIf (direction ∉ validDirections) (.validation "%s.direction: expected one of %s" [context])
  let width ← orRaise (.validation "%s.width: expected a positive integer" [context])
    (intOf (get "width" record))
  raiseIf (width ≤ 0) (.validation "%s.width: expected a positive integer" [context])
  let connections ← constantConnections context record
  validatePortConstants context width 0 [] connections
  raiseIf (connections ≠ [] ∧ direction ∉ ["output", "inout"])
    (.validation "%s: only output ports may be constant" [context])

/-- `ResourceVector.from_mapping` -/
def validateResources (context : String) (resources : Dict) : Result Unit := do
  raiseIf (∃ field ∈ resources, field.1 ∉ resourceFields)
    (.validation "%s: unknown resource fields: %s" [context])
  forM resourceFields fun field =>
    match get field resources with
    | none => pure ()
    | some raw => do
      let amount ← orRaise (.validation "%s.%s: expected a non-negative integer" [context, field])
        (intOf (some raw))
      raiseIf (amount < 0)
        (.validation "%s.%s: expected a non-negative integer" [context, field])

def validateInstanceConstant (context : String) (connection : Json) (index : ℕ) : Result Unit := do
  let context' := indexed (context ++ ".constant_connections") index
  let record ← orRaise (.validation "%s: expected an object" [context'])
    (dictOf (some connection))
  let port ← orRaise (.validation "%s.port: expected a non-empty string" [context'])
    (textOf (get "port" record))
  raiseIf (port = "") (.validation "%s.port: expected a non-empty string" [context'])
  let bit ← orRaise (.validation "%s.bit: expected a non-negative integer" [context'])
    (intOf (get "bit" record))
  raiseIf (bit < 0) (.validation "%s.bit: expected a non-negative integer" [context'])
  let value ← orRaise (.validation "%s.value: expected 0, 1, x, or z" [context'])
    (textOf (get "value" record))
  raiseIf (value ∉ constantValues) (.validation "%s.value: expected 0, 1, x, or z" [context'])

def validateInstance (inst : Json) (index : ℕ) : Result Unit := do
  let context := indexed "instances" index
  let record ← asRecord inst
  let type ← orRaise (.validation "%s.type: expected a non-empty string" [context])
    (textOf (get "type" record))
  raiseIf (type = "") (.validation "%s.type: expected a non-empty string" [context])
  let resources ← orRaise (.validation "%s.resources: expected an object" [context])
    (dictOf (get "resources" record))
  validateResources (context ++ ".resources") resources
  let connections ← constantConnections context record
  forM connections.zipIdx fun connection =>
    validateInstanceConstant context connection.1 connection.2

def requireOwner (instanceIds portIds : List String) (context : String) (record : Dict) :
    Result Unit :=
  if getOrNone "instance" record = .null then
    raiseIf (∀ id ∈ portIds, getOrNone "port" record ≠ .text id)
      (.validation "%s: top-level port %r does not exist" [context])
  else
    raiseIf (∀ id ∈ instanceIds, getOrNone "instance" record ≠ .text id)
      (.validation "%s: instance %r does not exist" [context])

def validateEndpoint (instanceIds portIds : List String) (context : String) (endpoint : Json) :
    Result Unit := do
  let record ← orRaise (.validation "%s: expected an object" [context]) (dictOf (some endpoint))
  requireOwner instanceIds portIds context record
  let port ← orRaise (.validation "%s.port: expected a non-empty string" [context])
    (textOf (get "port" record))
  raiseIf (port = "") (.validation "%s.port: expected a non-empty string" [context])
  let bit ← orRaise (.validation "%s.bit: expected a non-negative integer" [context])
    (intOf (get "bit" record))
  raiseIf (bit < 0) (.validation "%s.bit: expected a non-negative integer" [context])

def validateNet (instanceIds portIds : List String) (net : Json) (index : ℕ) : Result Unit := do
  let context := indexed "nets" index
  let record ← asRecord net
  let cutClass ← orRaise (.validation "%s.cut_class: expected one of %s" [context])
    (textOf (get "cut_class" record))
  raiseIf (cutClass ∉ validCutClasses) (.validation "%s.cut_class: expected one of %s" [context])
  forM ["drivers", "sinks"] fun collection => do
    let endpoints ← orRaise (.validation "%s.%s: expected an array" [context, collection])
      (listOf (get collection record))
    forM endpoints.zipIdx fun endpoint =>
      validateEndpoint instanceIds portIds (indexed (context ++ "." ++ collection) endpoint.2)
        endpoint.1

def validateDesign (value : Dict) : Result Unit := do
  let design ← orRaise (ValidationError "ir.design: expected an object")
    (dictOf (get "design" value))
  forM ["name", "top", "source_format"] fun key => do
    let s ← orRaise (.validation "ir.design.%s: expected a non-empty string" [key])
      (textOf (get key design))
    raiseIf (s = "") (.validation "ir.design.%s: expected a non-empty string" [key])

/-- `value.get(name)`, which has to be a list. -/
def arrayAt (name : String) (value : Dict) : Result (List Json) :=
  orRaise (.validation "ir.%s: expected an array" [name]) (listOf (get name value))

def validateWarnings (value : Dict) : Result Unit :=
  match get "warnings" value with
  | none => .ok ()
  | some warnings => do
    let items ← orRaise (ValidationError "ir.warnings: expected an array of strings")
      (listOf (some warnings))
    raiseIf (∃ warning ∈ items, textOf (some warning) = none)
      (ValidationError "ir.warnings: expected an array of strings")

/-- `EmuIR.validate` -/
def validate (value : Dict) : Result Unit := do
  raiseIf (get "schema" value ≠ some (.text emuirSchema))
    (.validation "ir.schema: expected %r, got %r" [emuirSchema])
  validateDesign value
  let ports ← arrayAt "ports" value
  let instances ← arrayAt "instances" value
  let nets ← arrayAt "nets" value
  let clocks ← arrayAt "clocks" value
  let portIds ← validateUniqueIds "ports" 0 [] ports
  let instanceIds ← validateUniqueIds "instances" 0 [] instances
  let _ ← validateUniqueIds "nets" 0 [] nets
  let _ ← validateUniqueIds "clocks" 0 [] clocks
  forM ports.zipIdx fun port => validatePort port.1 port.2
  forM instances.zipIdx fun inst => validateInstance inst.1 inst.2
  forM nets.zipIdx fun net => validateNet instanceIds portIds net.1 net.2
  validateWarnings value

end EmuFlow.Storage
