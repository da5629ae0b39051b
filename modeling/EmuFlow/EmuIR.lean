import EmuFlow.Errors
import EmuFlow.Lib.Keyed

/-!
# EmuIR

The mapped netlist of `emuflow/ir.py`. A value of `EmuIR` has passed `EmuIR.validate`: its
identifiers are unique and its endpoints refer to instances and ports it has.
-/

namespace EmuFlow

/-- `ResourceVector`. -/
structure ResourceVector where
  lut : Nat := 0
  ff : Nat := 0
  bram : Nat := 0
  dsp : Nat := 0
  carry : Nat := 0
  bram18k : Nat := 0
  uram288 : Nat := 0
  dsp48 : Nat := 0
  carry8 : Nat := 0
  io : Nat := 0
  clock : Nat := 0
  other : Nat := 0
  deriving DecidableEq

def ResourceVector.add (a b : ResourceVector) : ResourceVector where
  lut := a.lut + b.lut
  ff := a.ff + b.ff
  bram := a.bram + b.bram
  dsp := a.dsp + b.dsp
  carry := a.carry + b.carry
  bram18k := a.bram18k + b.bram18k
  uram288 := a.uram288 + b.uram288
  dsp48 := a.dsp48 + b.dsp48
  carry8 := a.carry8 + b.carry8
  io := a.io + b.io
  clock := a.clock + b.clock
  other := a.other + b.other

/-- `ResourceVector.sum`. -/
def ResourceVector.sum (vectors : List ResourceVector) : ResourceVector :=
  vectors.foldl ResourceVector.add {}

/-- `ResourceVector.fits_capacity`; a field the capacity does not name is zero. -/
def ResourceVector.fitsCapacity (r capacity : ResourceVector) : Bool :=
  r.lut ≤ capacity.lut && r.ff ≤ capacity.ff && r.bram ≤ capacity.bram && r.dsp ≤ capacity.dsp &&
    r.carry ≤ capacity.carry && r.bram18k ≤ capacity.bram18k && r.uram288 ≤ capacity.uram288 &&
    r.dsp48 ≤ capacity.dsp48 && r.carry8 ≤ capacity.carry8 && r.io ≤ capacity.io &&
    r.clock ≤ capacity.clock && r.other ≤ capacity.other

/-- `VALID_CUT_CLASSES`. -/
inductive CutClass
  | clock | reset | primaryInput | registerOutput | registerInput | combinational | multiDriver
  | undriven
  deriving DecidableEq

def CutClass.text : CutClass → String
  | .clock => "clock"
  | .reset => "reset"
  | .primaryInput => "primary_input"
  | .registerOutput => "register_output"
  | .registerInput => "register_input"
  | .combinational => "combinational"
  | .multiDriver => "multi_driver"
  | .undriven => "undriven"

/-- A driver or a sink of a net: a pin of an instance, or a bit of a top-level port. -/
structure Endpoint where
  inst : Option String
  port : String
  bit : Nat
  deriving DecidableEq

structure Net where
  id : String
  cutClass : CutClass
  drivers : List Endpoint
  sinks : List Endpoint
  deriving DecidableEq

structure Instance where
  id : String
  type : String
  resources : ResourceVector

def Endpoint.known (instances ports : List String) (e : Endpoint) : Prop :=
  match e.inst with
  | some i => i ∈ instances
  | none => e.port ∈ ports

instance (instances ports : List String) (e : Endpoint) : Decidable (e.known instances ports) := by
  unfold Endpoint.known
  cases e.inst <;> infer_instance

structure EmuIR where
  ports : List String
  instances : List Instance
  nets : List Net
  instance_ids_nodup : (instances.map Instance.id).Nodup
  net_ids_nodup : (nets.map Net.id).Nodup
  endpoints_known : ∀ net ∈ nets, ∀ e ∈ net.drivers ++ net.sinks,
    e.known (instances.map Instance.id) ports

namespace EmuIR

variable (ir : EmuIR)

/-- `instances[id]`. -/
def findInstance (id : String) : Option Instance := Keyed.find Instance.id ir.instances id

def findNet (id : String) : Option Net := Keyed.find Net.id ir.nets id

/-- `incoming_by_instance[id]`, a net once for each of its pins on the instance. -/
def incoming (id : String) : List Net :=
  ir.nets.flatMap fun net => (net.sinks.filter fun e => e.inst = some id).map fun _ => net

/-- `outgoing_by_instance[id]`. -/
def outgoing (id : String) : List Net :=
  ir.nets.flatMap fun net => (net.drivers.filter fun e => e.inst = some id).map fun _ => net

variable {ir} {id : String} {net : Net}

theorem mem_incoming : net ∈ ir.incoming id ↔ net ∈ ir.nets ∧ ∃ e ∈ net.sinks,
    e.inst = some id := by
  simp only [incoming, List.mem_flatMap, List.mem_map, List.mem_filter, decide_eq_true_eq]
  constructor
  · rintro ⟨n, hn, e, ⟨he, hi⟩, rfl⟩
    exact ⟨hn, e, he, hi⟩
  · rintro ⟨hn, e, he, hi⟩
    exact ⟨net, hn, e, ⟨he, hi⟩, rfl⟩

theorem mem_outgoing :
    net ∈ ir.outgoing id ↔ net ∈ ir.nets ∧ ∃ e ∈ net.drivers, e.inst = some id := by
  simp only [outgoing, List.mem_flatMap, List.mem_map, List.mem_filter, decide_eq_true_eq]
  constructor
  · rintro ⟨n, hn, e, ⟨he, hi⟩, rfl⟩
    exact ⟨hn, e, he, hi⟩
  · rintro ⟨hn, e, he, hi⟩
    exact ⟨net, hn, e, ⟨he, hi⟩, rfl⟩

theorem findNet_eq_some : ir.findNet id = some net ↔ net ∈ ir.nets ∧ net.id = id :=
  Keyed.find_eq_some ir.net_ids_nodup

theorem net_ext {net' : Net} (h : net ∈ ir.nets) (h' : net' ∈ ir.nets) (hid : net.id = net'.id) :
    net = net' :=
  List.inj_on_of_nodup_map ir.net_ids_nodup h h' hid

theorem exists_instance (hn : net ∈ ir.nets) {e : Endpoint} (he : e ∈ net.drivers ++ net.sinks)
    (hi : e.inst = some id) : id ∈ ir.instances.map Instance.id := by
  have h := ir.endpoints_known net hn e he
  rw [Endpoint.known, hi] at h
  exact h

end EmuIR

end EmuFlow
