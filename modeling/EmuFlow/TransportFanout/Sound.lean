import EmuFlow.TransportFanout.Trees

/-!
# The loop over the high-fanout nets

The candidates are numbered as they stand in the value. While their identifiers are free the loop
rewires one after the other and adds its tree; the first one whose identifiers are taken ends it,
with the nets before it rewired.
-/

namespace EmuFlow.TransportFanout

open Check SortedSet List

/-! ## all candidates -/

def rewire (maxFanout : ℕ) : ℕ → List Net → List Net
  | _, [] => []
  | candidate, net :: nets =>
    if isCandidate maxFanout net then
      net.rewired maxFanout candidate :: rewire maxFanout (candidate + 1) nets
    else net :: rewire maxFanout candidate nets

def forest (maxFanout candidate : ℕ) (nets : List Net) : List (Net × ℕ) :=
  (nets.filter (isCandidate maxFanout)).zipIdx candidate

def buffersOf (maxFanout : ℕ) (entry : Net × ℕ) : List Buffer :=
  (planOf maxFanout entry.2 entry.1).buffers

def Growth.plant (maxFanout : ℕ) (growth : Growth) (entry : Net × ℕ) : Growth :=
  growth.extend entry.2 entry.1.id (buffersOf maxFanout entry)

def Clear (maxFanout : ℕ) (growth : Growth) (entry : Net × ℕ) : Prop :=
  ∀ buffer ∈ buffersOf maxFanout entry, Free growth entry.2 buffer

instance (maxFanout : ℕ) (growth : Growth) (entry : Net × ℕ) :
    Decidable (Clear maxFanout growth entry) :=
  inferInstanceAs (Decidable (∀ buffer ∈ buffersOf maxFanout entry, _))

/-- The candidates that stand at `offset` or later. -/
def candidatesFrom (maxFanout offset : ℕ) (nets : List Net) : List (Net × ℕ) :=
  (nets.zipIdx offset).filter fun entry => isCandidate maxFanout entry.1

def recordsFrom (maxFanout : ℕ) : ℕ → ℕ → List Net → List Record
  | _, _, [] => []
  | candidate, offset, net :: nets =>
    if isCandidate maxFanout net then
      recordOf maxFanout candidate net offset ::
        recordsFrom maxFanout (candidate + 1) (offset + 1) nets
    else recordsFrom maxFanout candidate (offset + 1) nets

variable {maxFanout candidate offset : ℕ} {net : Net} {nets : List Net} {growth : Growth}
  {entry : Net × ℕ} {records : List Record} {progress : Progress}

theorem forest_cons (net : Net) (nets : List Net) : forest maxFanout candidate (net :: nets) =
    if isCandidate maxFanout net then (net, candidate) :: forest maxFanout (candidate + 1) nets
    else forest maxFanout candidate nets := by
  rw [forest, filter_cons]
  split_ifs with h
  · rw [zipIdx_cons]
    rfl
  · rfl

theorem candidatesFrom_cons (net : Net) (nets : List Net) :
    candidatesFrom maxFanout offset (net :: nets) = if isCandidate maxFanout net then
        (net, offset) :: candidatesFrom maxFanout (offset + 1) nets
      else candidatesFrom maxFanout (offset + 1) nets := by
  rw [candidatesFrom, zipIdx_cons, filter_cons]
  rfl

theorem isCandidate_sinks (h : isCandidate maxFanout net = true) :
    maxFanout < net.sinks.length := by
  rw [isCandidate, Bool.and_eq_true] at h
  exact of_decide_eq_true h.1

theorem mem_forest (h : entry ∈ forest maxFanout candidate nets) :
    entry.1 ∈ nets ∧ isCandidate maxFanout entry.1 = true ∧ candidate ≤ entry.2 := by
  obtain ⟨hn, hc⟩ := mem_filter.mp (fst_mem_of_mem_zipIdx h)
  exact ⟨hn, hc, le_snd_of_mem_zipIdx h⟩

theorem clear_plant {other : Net × ℕ} (h : other.2 ≠ entry.2) :
    Clear maxFanout (growth.plant maxFanout other) entry ↔ Clear maxFanout growth entry :=
  forall₂_congr fun _ _ => free_extend fun _ _ heq => absurd heq h

theorem exists_taken (h : ¬ Clear maxFanout growth entry) :
    ∃ buffer ∈ buffersOf maxFanout entry, ¬ Free growth entry.2 buffer := by
  by_contra hn
  refine h fun buffer hb => ?_
  by_contra hf
  exact hn ⟨buffer, hb, hf⟩

theorem forest_eq_candidates (maxFanout : ℕ) (nets : List Net) :
    forest maxFanout 0 nets = ((candidates maxFanout nets).map Prod.fst).zipIdx := by
  rw [forest, candidates]
  congr 1
  have hf := filter_map (f := Prod.fst) (p := isCandidate maxFanout) (l := nets.zipIdx)
  rw [zipIdx_map_fst] at hf
  exact hf

theorem set_append_cons (done rest : List Net) (old new : Net) :
    (done ++ old :: rest).set done.length new = (done ++ [new]) ++ rest := by
  rw [set_append_right _ _ le_rfl, Nat.sub_self, set_cons_zero, append_assoc]
  rfl

theorem bufferCandidates_eq (hp : 0 < maxFanout) : ∀ (nets done : List Net) (candidate : ℕ)
    (growth : Growth) (records : List Record),
    (∀ entry ∈ forest maxFanout candidate nets, Clear maxFanout growth entry) →
    bufferCandidates maxFanout candidate (candidatesFrom maxFanout done.length nets)
        { nets := done ++ nets, growth := growth, records := records } =
      ({ nets := done ++ rewire maxFanout candidate nets
         growth := (forest maxFanout candidate nets).foldl (Growth.plant maxFanout) growth
         records := records ++ recordsFrom maxFanout candidate done.length nets }, .ok ())
  | [], done, candidate, growth, records, _ => by
    simp [candidatesFrom, bufferCandidates, rewire, forest, recordsFrom]
  | net :: nets, done, candidate, growth, records, hc => by
    rw [forest_cons] at hc ⊢
    rw [candidatesFrom_cons, rewire, recordsFrom]
    by_cases hnt : isCandidate maxFanout net = true
    · rw [if_pos hnt] at hc
      obtain ⟨hf, hr⟩ := forall_mem_cons.mp hc
      have hn : ∀ entry ∈ forest maxFanout (candidate + 1) nets,
          Clear maxFanout (growth.plant maxFanout (net, candidate)) entry := by
        intro entry he
        refine (clear_plant ?_).mpr (hr entry he)
        have hle := (mem_forest he).2.2
        show candidate ≠ entry.2
        omega
      have ih := bufferCandidates_eq hp nets (done ++ [net.rewired maxFanout candidate])
        (candidate + 1) (growth.plant maxFanout (net, candidate))
        (records ++ [recordOf maxFanout candidate net done.length]) hn
      rw [length_append, length_singleton] at ih
      rw [if_pos hnt, if_pos hnt, if_pos hnt, if_pos hnt, bufferCandidates,
        bufferCandidate_eq hp (isCandidate_sinks hnt) hf]
      dsimp only
      rw [set_append_cons]
      refine ih.trans ?_
      rw [append_assoc, append_assoc]
      rfl
    · rw [if_neg hnt] at hc
      have ih := bufferCandidates_eq hp nets (done ++ [net]) candidate growth records hc
      rw [length_append, length_singleton, append_assoc, append_assoc] at ih
      rw [if_neg hnt, if_neg hnt, if_neg hnt, if_neg hnt]
      exact ih

theorem bufferCandidates_collides (hp : 0 < maxFanout) : ∀ (nets done : List Net)
    (candidate : ℕ) (growth : Growth) (records : List Record),
    (∃ entry ∈ forest maxFanout candidate nets, ¬ Clear maxFanout growth entry) →
    ∃ owner, (bufferCandidates maxFanout candidate (candidatesFrom maxFanout done.length nets)
      { nets := done ++ nets, growth := growth, records := records }).2 = .error (collision owner)
  | [], done, candidate, growth, records, h => by
    obtain ⟨_, he, -⟩ := h
    exact absurd he not_mem_nil
  | net :: nets, done, candidate, growth, records, h => by
    rw [forest_cons] at h
    rw [candidatesFrom_cons]
    by_cases hn : isCandidate maxFanout net = true
    · rw [if_pos hn] at h ⊢
      rw [bufferCandidates]
      by_cases hf : Clear maxFanout growth (net, candidate)
      · rw [bufferCandidate_eq hp (isCandidate_sinks hn) hf]
        obtain ⟨entry, he, ht⟩ := h
        rcases mem_cons.mp he with rfl | he
        · exact absurd hf ht
        · have hne : (net, candidate).2 ≠ entry.2 := by
            have hle := (mem_forest he).2.2
            show candidate ≠ entry.2
            omega
          have ih := bufferCandidates_collides hp nets (done ++ [net.rewired maxFanout candidate])
            (candidate + 1) (growth.plant maxFanout (net, candidate))
            (records ++ [recordOf maxFanout candidate net done.length])
            ⟨entry, he, fun hc => ht ((clear_plant hne).mp hc)⟩
          rw [length_append, length_singleton] at ih
          dsimp only
          rw [set_append_cons]
          exact ih
      · rw [bufferCandidate_collides (exists_taken hf)]
        exact ⟨net.id, rfl⟩
    · rw [if_neg hn] at h ⊢
      have ih := bufferCandidates_collides hp nets (done ++ [net]) candidate growth records h
      rw [length_append, length_singleton, append_assoc] at ih
      exact ih

theorem getElem?_bufferCandidates : ∀ {l : List (Net × ℕ)} {candidate : ℕ} {progress : Progress}
    {index : ℕ}, index ∉ l.map Prod.snd →
    (bufferCandidates maxFanout candidate l progress).1.nets[index]? = progress.nets[index]?
  | [], _, _, _, _ => rfl
  | (net, position) :: l, candidate, progress, index, h => by
    rw [map_cons, mem_cons, not_or] at h
    rw [bufferCandidates]
    cases ht : bufferCandidate maxFanout candidate progress.growth net position with
    | error e => rfl
    | ok turn =>
      obtain ⟨net', growth, r⟩ := turn
      dsimp only
      rw [getElem?_bufferCandidates h.2]
      exact List.getElem?_set_ne (Ne.symm h.1)

theorem nodup_candidatesFrom (maxFanout offset : ℕ) (nets : List Net) :
    ((candidatesFrom maxFanout offset nets).map Prod.snd).Nodup := by
  refine Nodup.sublist (filter_sublist.map Prod.snd) ?_
  rw [zipIdx_map_snd]
  exact nodup_range'

/-!
## The value with every buffer tree in it

Every sink endpoint stays, below its driver through identity LUT1 cells, every buffer has one input,
and no two cells and no two nets share an identifier.

* `validate_iff` — what `EmuIR.validate` accepts
* `forest_sinks`, `reaches_of_plan` — the endpoints
* `nodup_after` — the identifiers
-/

/-! ## valid values -/

def Known (ir : TransportIR) (endpoint : Endpoint) : Prop :=
  endpoint.known (ir.instances.map Instance.id) ir.ports ∧ endpoint.port ≠ ""

structure Valid (ir : TransportIR) : Prop where
  ports : (∀ id ∈ ir.ports, id ≠ "") ∧ ir.ports.Nodup
  instances : (∀ id ∈ ir.instances.map Instance.id, id ≠ "") ∧ (ir.instances.map Instance.id).Nodup
  nets : (∀ id ∈ ir.nets.map Net.id, id ≠ "") ∧ (ir.nets.map Net.id).Nodup
  types : ∀ inst ∈ ir.instances, inst.type ≠ ""
  endpoints : ∀ net ∈ ir.nets, ∀ endpoint ∈ net.drivers ++ net.sinks, Known ir endpoint

variable {ir : TransportIR} {maxFanout candidate turns level : ℕ}

theorem validateUniqueIds_eq_ok {context : String} :
    ∀ {ids seen : List String} {index : ℕ}, validateUniqueIds context index seen ids = .ok () ↔
      (∀ id ∈ ids, id ≠ "" ∧ id ∉ seen) ∧ ids.Nodup
  | [], seen, index => by simp [validateUniqueIds]
  | id :: ids, seen, index => by
    rw [validateUniqueIds, raiseIf_bind, raiseIf_bind, validateUniqueIds_eq_ok,
      forall_mem_cons, nodup_cons]
    constructor
    · rintro ⟨hne, hid, hi, hnd⟩
      refine ⟨⟨⟨hne, hid⟩, fun x hx => ⟨(hi x hx).1, fun hs => ?_⟩⟩, fun hx => ?_, hnd⟩
      · exact (hi x hx).2 (mem_cons_of_mem _ hs)
      · exact (hi id hx).2 mem_cons_self
    · rintro ⟨⟨⟨hne, hid⟩, hi⟩, hn, hnd⟩
      refine ⟨hne, hid, fun x hx => ⟨(hi x hx).1, fun hs => ?_⟩, hnd⟩
      rcases mem_cons.mp hs with rfl | hs
      · exact hn hx
      · exact (hi x hx).2 hs

theorem forM_zipIdx_iff {α : Type} {f : α × ℕ → Result Unit} {P : α → Prop} {l : List α}
    (h : ∀ a i, f (a, i) = .ok () ↔ P a) : forM l.zipIdx f = .ok () ↔ ∀ a ∈ l, P a := by
  rw [forM_eq_ok]
  constructor
  · intro hal a ha
    obtain ⟨i, hi⟩ := List.getElem?_of_mem ha
    exact (h a i).mp (hal (a, i) (List.mk_mem_zipIdx_iff_getElem?.mpr hi))
  · rintro hal ⟨a, i⟩ hm
    exact (h a i).mpr (hal a (fst_mem_of_mem_zipIdx hm))

theorem validateEndpoint_eq_ok {context : List String} {endpoint : Endpoint} :
    validateEndpoint ir context endpoint = .ok () ↔ Known ir endpoint := by
  unfold validateEndpoint requireOwner Known Endpoint.known
  rw [bind_eq_ok]
  cases endpoint.inst with
  | none => simp
  | some id => simp

theorem bind_unit_eq_ok {α : Type} {x : Result Unit} {f : Unit → Result α} {a : α} :
    (x >>= f) = .ok a ↔ x = .ok () ∧ f () = .ok a := by
  rw [bind_eq_ok]
  exact ⟨fun ⟨_, hx, hf⟩ => ⟨hx, hf⟩, fun ⟨hx, hf⟩ => ⟨(), hx, hf⟩⟩

/-- The validator accepts exactly the valid designs. -/
theorem validate_iff : validate ir = .ok () ↔ Valid ir := by
  have hpn : ∀ (index : ℕ) (name : String) (l : List Endpoint),
    (forM l.zipIdx fun (endpoint : Endpoint × ℕ) =>
      validateEndpoint ir [toString index, name, toString endpoint.2] endpoint.1) = .ok () ↔
        ∀ endpoint ∈ l, Known ir endpoint :=
    fun index name l => forM_zipIdx_iff fun _ _ => validateEndpoint_eq_ok
  have hn : (forM ir.nets.zipIdx fun (net : Net × ℕ) => do
      forM net.1.drivers.zipIdx fun (endpoint : Endpoint × ℕ) =>
        validateEndpoint ir [toString net.2, "drivers", toString endpoint.2] endpoint.1
      forM net.1.sinks.zipIdx fun (endpoint : Endpoint × ℕ) =>
        validateEndpoint ir [toString net.2, "sinks", toString endpoint.2] endpoint.1) =
      .ok () ↔ ∀ net ∈ ir.nets, ∀ endpoint ∈ net.drivers ++ net.sinks, Known ir endpoint := by
    refine forM_zipIdx_iff fun net index => ?_
    rw [bind_unit_eq_ok, hpn, hpn]
    simp only [List.mem_append, or_imp, forall_and]
  have ht : (forM ir.instances.zipIdx fun (inst : Instance × ℕ) => raiseIf (inst.1.type = "")
      (EmuFlowError.validation "instances[%s].type: expected a non-empty string"
        [toString inst.2])) = .ok () ↔ ∀ inst ∈ ir.instances, inst.type ≠ "" :=
    forM_zipIdx_iff fun _ _ => raiseIf_eq_ok
  rw [validate, bind_unit_eq_ok, bind_unit_eq_ok, bind_unit_eq_ok, bind_unit_eq_ok, hn, ht,
    validateUniqueIds_eq_ok, validateUniqueIds_eq_ok, validateUniqueIds_eq_ok]
  simp only [not_mem_nil, not_false_eq_true, and_true]
  constructor
  · rintro ⟨hp, hi, hid, ht, he⟩
    exact ⟨hp, hi, hid, ht, he⟩
  · rintro ⟨hp, hi, hid, ht, he⟩
    exact ⟨hp, hi, hid, ht, he⟩

/-- Bit `index` of a table written as a binary numeral. -/
def tableBit (table : String) (index : ℕ) : Option Bool :=
  (table.toList.reverse[index]?).bind fun c =>
    if c = '1' then some true else if c = '0' then some false else none

def IdentityLut (inst : Instance) : Prop :=
  inst.type = "$lut" ∧ inst.parameters.lookup "WIDTH" = some "00000000000000000000000000000001" ∧
    ∃ table, inst.parameters.lookup "LUT" = some table ∧
      ∀ input : Bool, tableBit table input.toNat = some input

theorem identityLut_buffer (name owner : String) (level : ℕ) :
    IdentityLut (bufferInstance name owner level) :=
  ⟨rfl, rfl, "10", rfl, by decide⟩

inductive Reaches (ir : TransportIR) (net : Net) : Endpoint → Prop
  | direct {endpoint : Endpoint} : endpoint ∈ net.sinks → Reaches ir net endpoint
  | through {cell : Instance} {below : Net} {endpoint : Endpoint} :
    Reaches ir net (inputPin cell.id) → cell ∈ ir.instances → IdentityLut cell →
    below ∈ ir.nets → below.drivers = [outputPin cell.id] → endpoint ∈ below.sinks →
    Reaches ir net endpoint

theorem reaches_of_plan {net : Net} {owner : String} (hp : 0 < maxFanout) :
    ∀ {turns level : ℕ} {sinks : List Endpoint},
    net.sinks = (plan maxFanout candidate turns level sinks).root →
    (∀ buffer ∈ (plan maxFanout candidate turns level sinks).buffers,
      buffer.cell candidate owner ∈ ir.instances ∧ buffer.net candidate owner ∈ ir.nets) →
    ∀ p ∈ sinks, Reaches ir net p
  | 0, level, sinks, hr, _, p, he => .direct (hr ▸ he)
  | turns + 1, level, sinks, hr, hb, p, he => by
    rw [plan] at hr hb
    split_ifs at hr hb with hs
    · exact .direct (hr ▸ he)
    · have ha := @reaches_of_plan net owner hp turns _ _ hr fun buffer hbf =>
        hb buffer (mem_append_right _ hbf)
      rw [← @flatMap_levelBuffers maxFanout level sinks hp] at he
      obtain ⟨buffer, hbf, hin⟩ := mem_flatMap.mp he
      obtain ⟨hc, hn⟩ := hb buffer (mem_append_left _ hbf)
      exact .through (ha _ (mem_map_of_mem hbf)) hc (identityLut_buffer _ _ _)
        hn rfl hin

/-! ## the value after all trees -/

def cellsOf (maxFanout : ℕ) (entry : Net × ℕ) : List Instance :=
  (buffersOf maxFanout entry).map (Buffer.cell entry.2 entry.1.id)

def netsOf (maxFanout : ℕ) (entry : Net × ℕ) : List Net :=
  (buffersOf maxFanout entry).map (Buffer.net entry.2 entry.1.id)

def after (ir : TransportIR) (maxFanout : ℕ) : TransportIR :=
  { ir with
    instances := ir.instances ++ (forest maxFanout 0 ir.nets).flatMap (cellsOf maxFanout)
    nets := rewire maxFanout 0 ir.nets ++ (forest maxFanout 0 ir.nets).flatMap (netsOf maxFanout) }

def startGrowth (ir : TransportIR) : Growth where
  occupiedInstances := ir.instances.map Instance.id
  occupiedNets := ir.nets.map Net.id

variable {growth : Growth} {net : Net} {nets : List Net} {entry : Net × ℕ}

theorem foldl_plant : ∀ (l : List (Net × ℕ)) (growth : Growth),
    (l.foldl (Growth.plant maxFanout) growth).addedInstances =
        growth.addedInstances ++ l.flatMap (cellsOf maxFanout) ∧
      (l.foldl (Growth.plant maxFanout) growth).addedNets =
        growth.addedNets ++ l.flatMap (netsOf maxFanout)
  | [], growth => by simp
  | entry :: l, growth => by
    obtain ⟨hc, hn⟩ := foldl_plant l (growth.plant maxFanout entry)
    rw [foldl_cons, hc, hn, flatMap_cons, flatMap_cons]
    constructor
    · exact append_assoc _ _ _
    · exact append_assoc _ _ _

@[simp] theorem length_rewire : ∀ (nets : List Net) (candidate : ℕ),
    (rewire maxFanout candidate nets).length = nets.length
  | [], _ => rfl
  | net :: nets, candidate => by
    rw [rewire]
    split_ifs
    · rw [length_cons, length_rewire nets, length_cons]
    · rw [length_cons, length_rewire nets, length_cons]

theorem forest_sinks (hps : 0 < maxFanout) : ∀ (nets : List Net) (candidate : ℕ),
    ((rewire maxFanout candidate nets).flatMap Net.sinks ++
      ((forest maxFanout candidate nets).flatMap (netsOf maxFanout)).flatMap Net.sinks).Perm
    (nets.flatMap Net.sinks ++ ((forest maxFanout candidate nets).flatMap (cellsOf maxFanout)).map
        fun cell => inputPin cell.id)
  | [], candidate => by simp [rewire, forest]
  | net :: nets, candidate => by
    rw [forest_cons, rewire]
    by_cases hn : isCandidate maxFanout net = true
    · have ih := forest_sinks hps nets (candidate + 1)
      have ht : ((planOf maxFanout candidate net).root ++
          (netsOf maxFanout (net, candidate)).flatMap Net.sinks).Perm
          (net.sinks ++ (cellsOf maxFanout (net, candidate)).map fun cell => inputPin cell.id) := by
        have hp := @plan_sinks maxFanout candidate hps net.sinks.length 0
          (sortedBy endpointKey net.sinks)
        rw [netsOf, cellsOf, flatMap_map, map_map]
        exact hp.trans ((sortedBy_perm _ _).append_right _)
      rw [if_pos hn, if_pos hn]
      simp only [flatMap_cons, flatMap_append, map_append]
      rw [perm_iff_count] at ih ht ⊢
      intro p
      have h₁ := ih p
      have h₂ := ht p
      simp only [count_append, Net.rewired] at h₁ h₂ ⊢
      omega
    · rw [if_neg hn, if_neg hn, flatMap_cons, flatMap_cons, append_assoc, append_assoc]
      exact (forest_sinks hps nets candidate).append_left _

def keysOf (maxFanout : ℕ) (entry : Net × ℕ) : List (ℕ × ℕ × ℕ) :=
  (buffersOf maxFanout entry).map fun buffer => (entry.2, buffer.level, buffer.group)

theorem nodup_keysOf : ∀ (nets : List Net) (candidate : ℕ),
    ((forest maxFanout candidate nets).flatMap (keysOf maxFanout)).Nodup
  | [], _ => nodup_nil
  | net :: nets, candidate => by
    rw [forest_cons]
    split_ifs with hn
    · rw [flatMap_cons, nodup_append]
      refine ⟨?_, nodup_keysOf nets _, ?_⟩
      · have hp := nodup_plan maxFanout candidate net.sinks.length 0
          (sortedBy endpointKey net.sinks)
        have hm := hp.map (f := fun key => (candidate, key)) fun a b hab => (Prod.mk.inj hab).2
        rwa [map_map] at hm
      · intro a ha b hb hab
        obtain ⟨_, -, rfl⟩ := mem_map.mp ha
        obtain ⟨other, ho, hb⟩ := mem_flatMap.mp hb
        obtain ⟨_, -, rfl⟩ := mem_map.mp hb
        have hle := (mem_forest ho).2.2
        have heq : candidate = other.2 := (Prod.mk.inj hab).1
        omega
    · exact nodup_keysOf nets candidate

theorem ids_cellsOf (l : List (Net × ℕ)) : (l.flatMap (cellsOf maxFanout)).map Instance.id =
    (l.flatMap (keysOf maxFanout)).map fun key => cellId key.1 key.2.1 key.2.2 := by
  simp only [map_flatMap, cellsOf, keysOf, map_map]
  rfl

theorem ids_netsOf (l : List (Net × ℕ)) : (l.flatMap (netsOf maxFanout)).map Net.id =
    (l.flatMap (keysOf maxFanout)).map fun key => outputNetId key.1 key.2.1 key.2.2 := by
  simp only [map_flatMap, netsOf, keysOf, map_map]
  rfl

theorem ids_rewire : ∀ (nets : List Net) (candidate : ℕ),
    (rewire maxFanout candidate nets).map Net.id = nets.map Net.id
  | [], _ => rfl
  | net :: nets, candidate => by
    rw [rewire]
    split_ifs
    · rw [map_cons, ids_rewire nets, map_cons]
      rfl
    · rw [map_cons, ids_rewire nets, map_cons]

theorem nodup_after (hv : Valid ir)
    (hc : ∀ entry ∈ forest maxFanout 0 ir.nets, Clear maxFanout (startGrowth ir) entry) :
    ((after ir maxFanout).instances.map Instance.id).Nodup ∧
      ((after ir maxFanout).nets.map Net.id).Nodup := by
  have hk := @nodup_keysOf maxFanout ir.nets 0
  have hf : ∀ key ∈ (forest maxFanout 0 ir.nets).flatMap (keysOf maxFanout),
      cellId key.1 key.2.1 key.2.2 ∉ ir.instances.map Instance.id ∧
        outputNetId key.1 key.2.1 key.2.2 ∉ ir.nets.map Net.id := by
    intro key hky
    obtain ⟨entry, he, hky⟩ := mem_flatMap.mp hky
    obtain ⟨buffer, hbf, rfl⟩ := mem_map.mp hky
    exact hc entry he buffer hbf
  constructor
  · rw [after, map_append, ids_cellsOf, nodup_append]
    refine ⟨hv.instances.2, hk.map fun a b hab => ?_, ?_⟩
    · obtain ⟨h₁, h₂, h₃⟩ := cellId_injective hab
      exact Prod.ext h₁ (Prod.ext h₂ h₃)
    · intro a ha b hb hab
      obtain ⟨key, hky, rfl⟩ := mem_map.mp hb
      exact (hf key hky).1 (hab ▸ ha)
  · rw [after, map_append, ids_netsOf, ids_rewire, nodup_append]
    refine ⟨hv.nets.2, hk.map fun a b hab => ?_, ?_⟩
    · obtain ⟨h₁, h₂, h₃⟩ := outputNetId_injective hab
      exact Prod.ext h₁ (Prod.ext h₂ h₃)
    · intro a ha b hb hab
      obtain ⟨key, hky, rfl⟩ := mem_map.mp hb
      exact (hf key hky).2 (hab ▸ ha)

end EmuFlow.TransportFanout
