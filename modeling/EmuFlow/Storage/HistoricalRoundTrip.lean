import EmuFlow.Storage.CompactRoundTrip

/-!
# EmuIR storage: the historical round trip and repacking

A value whose records are ready for the historical store is written, and read back in its normal
form. This form is ready for the compact store and normal there, so that repacking the one store
into the other changes nothing that a reader sees.
-/

namespace EmuFlow.Storage

open Check SortedDict OwnedRows List InstanceRows SortedSet

structure HistoricalReady (ports instances : List Json) : Prop where
  portRecords : ∀ port ∈ ports, ∃ r, port = .object r ∧ PortReady r
  portIds : (ports.map idOf).Nodup
  instanceRecords : ∀ inst ∈ instances, ∃ r, inst = .object r ∧ InstanceReady r

variable {sqlite : Affinity} {sizes : Sizes} {value record : Dict} {key : String} {f : Dict → Dict}
  {ports instances nets clocks : List Json} {n : ℕ}

def historicalPort (record : Dict) : Dict := dropNull "name" (normalPort record)

theorem portsLoop_eq {rows : List (PortRow × List PortConstantRow)}
    (h : Numbered PortWritten n ports rows) :
    portsLoop (rows.map Prod.fst) (rows.flatMap Prod.snd) =
      .ok (ports.map (overRecord historicalPort)) := by
  induction h with
  | nil => rfl
  | @cons n port ports row rows hrw hr ih =>
    have ht := take_append (orphaned "port_seq") hrw.owner fun row hm =>
      hr.le_owner_flatMap (fun _ _ _ hw => hw.owner) row hm
    rw [map_cons, flatMap_cons, portsLoop, hrw.number, ht]
    simp only [bind, Except.bind, hrw.read, ih, pure, Except.pure]
    rfl

theorem instancesLoop_eq {rows : List InstanceRows}
    (h : Numbered InstanceWritten n instances rows) :
    instancesLoop (rows.map row) (rows.flatMap resources)
      (rows.flatMap constants) =
      .ok (instances.map (overRecord normalInstance)) := by
  induction h with
  | nil => rfl
  | @cons n inst instances row rows hrw hrs ih =>
    have hr := take_append (orphaned "instance_seq") hrw.resources_owner
      fun row hm => hrs.le_owner_flatMap (fun _ _ _ hw => hw.resources_owner) row hm
    have hc := take_append (orphaned "instance_seq") hrw.constants_owner
      fun row hm => hrs.le_owner_flatMap (fun _ _ _ hw => hw.constants_owner) row hm
    rw [map_cons, flatMap_cons, flatMap_cons, instancesLoop, hrw.number, hr, hc]
    simp only [bind, Except.bind, hrw.read, ih, pure, Except.pure, map_cons]

theorem sortedBy_rows {β ρ κ : Type} [LinearOrder κ] {R : ℕ → Json → β → Prop} {l : List Json}
    {bs : List β} {rows : β → List ρ} {owner : ρ → ℕ} {rank : ρ → κ} (h : Numbered R n l bs)
    (ho : ∀ n a b, R n a b → ∀ row ∈ rows b, owner row = n)
    (hor : ∀ n a b, R n a b → (rows b).Pairwise fun x y => rank x < rank y) :
    sortedBy (fun row => lex (owner row) (rank row)) (bs.flatMap rows) =
      bs.flatMap rows := by
  refine sortedBy_eq_self (h.pairwise_flatMap ho (fun n a b ha => ?_)
    fun _ _ hlt => lex_le (.inl hlt))
  refine (hor n a b ha).imp_of_mem fun hx hy hxy => lex_le (.inr ⟨?_, hxy.le⟩)
  rw [ho n a b ha _ hx, ho n a b ha _ hy]

/-! ## the value -/

variable (sqlite) in
theorem writePortRows_spec (h : ∀ port ∈ ports, ∃ r, port = .object r ∧ PortReady r) :
    ∃ rows, numberedM (writePortRow sqlite) 0 ports () = .ok (rows, ()) ∧
      Numbered PortWritten 0 ports rows :=
  numberedM_of_const (P := fun port => ∃ r, port = Json.object r ∧ PortReady r)
    (fun seq port hp => by
      obtain ⟨r, rfl, hr⟩ := hp
      exact writePortRow_spec hr seq) h

variable (sqlite) in
theorem writeInstanceRows_spec (h : ∀ inst ∈ instances, ∃ r, inst = .object r ∧ InstanceReady r) :
    ∃ rows, numberedM (writeInstanceRow sqlite) 0 instances () = .ok (rows, ()) ∧
      Numbered InstanceWritten 0 instances rows :=
  numberedM_of_const (P := fun inst => ∃ r, inst = Json.object r ∧ InstanceReady r)
    (fun seq inst hi => by
      obtain ⟨r, rfl, hr⟩ := hi
      exact writeInstanceRow_spec hr seq) h

variable (sqlite) in
theorem writeNetRows_spec (h : ∀ net ∈ nets, ∃ r, net = .object r ∧ NetReady instances r) :
    ∃ rows, numberedM (writeNetRow sqlite) 0 nets () = .ok (rows, ()) ∧
      Numbered NetRowWritten 0 nets rows :=
  numberedM_of_const (P := fun net => ∃ r, net = Json.object r ∧ NetReady instances r)
    (fun seq net hn => by
      obtain ⟨r, rfl, hr⟩ := hn
      exact writeNetRow_spec hr seq) h

theorem historicalImages {rows : List HistoricalNetRows} (h : Numbered NetRowWritten n nets rows) :
    Numbered NetImaged n nets (rows.map HistoricalNetRows.image) := by
  induction h with
  | nil => exact .nil
  | cons hr _ ih => exact .cons hr.imaged ih

def historicalFields (value : Dict) (ports instances nets clocks : List Json) : Dict :=
  display [("schema", getOrNone "schema" value), ("design", getOrNone "design" value),
    ("warnings", listOrEmpty "warnings" value),
    ("ports", .array (ports.map (overRecord historicalPort))), ("clocks", .array clocks),
    ("instances", .array (instances.map (overRecord normalInstance))),
    ("nets", .array (nets.map (overRecord normalNet)))]

theorem overRecord_comp (f g : Dict → Dict) (value : Json) :
    overRecord f (overRecord g value) = overRecord (fun d => f (g d)) value := by
  cases value <;> rfl

theorem historicalForm_eq (h : Ready value ports instances nets clocks) :
    historicalForm value = historicalFields value ports instances nets clocks := by
  have hp : overItems (dropNull "name") (overItems normalPort (.array ports)) =
      .array (ports.map (overRecord historicalPort)) := by
    simp only [overItems, map_map]
    exact congrArg Json.array (map_congr_left fun port _ => overRecord_comp _ _ port)
  refine ext (ascending_mapField ascending_display) ascending_display fun k => ?_
  rw [historicalForm, get_mapField]
  by_cases hk : k = "ports"
  · rw [if_pos hk, hk]
    simp [normalForm, historicalFields, display_eq, listOrEmpty, h.hasPorts, hp]
  · rw [if_neg hk]
    simp [normalForm, historicalFields, display_eq, listOrEmpty, h.hasInstances, h.hasNets,
      h.hasClocks, overItems, hk]

theorem readFields_eq (schema design warnings ports instances nets clocks : Json) :
    display [("schema", schema), ("design", design), ("ports", ports), ("instances", instances),
        ("nets", nets), ("clocks", clocks), ("warnings", warnings)] =
      display [("schema", schema), ("design", design), ("warnings", warnings), ("ports", ports),
        ("clocks", clocks), ("instances", instances), ("nets", nets)] := by
  refine ext ascending_display ascending_display fun k => ?_
  simp only [display_eq, foldl_cons, foldl_nil, get_set, get_nil]
  split_ifs <;> simp_all

variable (sqlite sizes) in
/-- The historical store of a ready design reads back as its historical form. -/
theorem historical_of_ready (h : Ready value ports instances nets clocks)
    (hh : HistoricalReady ports instances) :
    ∃ store, writeEmuirSqliteV1 sqlite value = .ok store ∧
      readEmuirSqlite store = .ok (historicalForm value) ∧
      repackEmuir sqlite sizes store = writeCompactEmuir sqlite sizes (historicalForm value) := by
  obtain ⟨metadata, hmt, hsh, hds, hwr⟩ := writeMetadata_spec sqlite h.hasSchema
  obtain ⟨portRows, hpt, hpr⟩ := writePortRows_spec sqlite hh.portRecords
  obtain ⟨instanceRows, his, hin⟩ :=
    writeInstanceRows_spec sqlite hh.instanceRecords
  obtain ⟨netRows, hns, hnr⟩ := writeNetRows_spec sqlite h.netRecords
  obtain ⟨clockRows, hck, hcc⟩ := writeClocks_spec clocks
  have huq : requireUnique "ports.id" (portRows.map fun port => port.1.id) = .ok () :=
    requireUnique_of_ids hpr (fun _ _ _ hpo => hpo.id) hh.portIds
  have hun :
      requireUnique "instances.id" (instanceRows.map fun inst => inst.row.id) = .ok () :=
    requireUnique_of_ids hin (fun _ _ _ hit => hit.id) h.cellIds
  have huni : requireUnique "nets.id" (netRows.map fun net => net.row.id) = .ok () :=
    requireUnique_of_ids hnr (fun _ _ _ hne => hne.id) h.netIds
  have hrc : ∀ {name : String} {l : List Json}, get name value = some (.array l) →
      recordsAt name value = .ok l := fun hl => by
    rw [recordsAt, hl]
    rfl
  have hwt : writeEmuirSqliteV1 sqlite value =
      .ok { metadata := metadata, ports := portRows.map Prod.fst,
            portConstants := portRows.flatMap Prod.snd,
            instances := instanceRows.map row,
            resources := instanceRows.flatMap resources,
            instanceConstants := instanceRows.flatMap constants,
            nets := netRows.map HistoricalNetRows.row,
            aliases := netRows.flatMap HistoricalNetRows.aliases,
            endpoints := netRows.flatMap fun net => net.drivers ++ net.sinks,
            clocks := clockRows } := by
    simp only [writeEmuirSqliteV1, hmt, hrc h.hasPorts, hrc h.hasInstances,
      hrc h.hasNets, hrc h.hasClocks, hpt, huq, his,
      hun, hns, huni, hck, bind, Except.bind, pure, Except.pure]
  have him := historicalImages hnr
  obtain ⟨hor, hen, hal⟩ := orders_eq him
  obtain ⟨hcm, hlp⟩ := netsLoops_eq him
  rw [← hor, ← hen, ← hal] at hcm hlp
  rw [map_map, flatMap_map, flatMap_map] at hcm hlp
  have hsc : portsLoop (orderBySeq PortRow.seq (portRows.map Prod.fst))
      (sortedBy (fun row => lex row.portSeq row.ordinal)
        (portRows.flatMap Prod.snd)) = .ok (ports.map (overRecord historicalPort)) := by
    have hrw : orderBySeq PortRow.seq (portRows.map Prod.fst) = portRows.map Prod.fst :=
      orderBySeq_of_pairwise (pairwise_map.mpr (hpr.pairwise fun _ _ _ hro => hro.number))
    rw [hrw, sortedBy_rows hpr (fun _ _ _ hro => hro.owner) fun _ _ _ hro => hro.order]
    exact portsLoop_eq hpr
  have hsr : instancesLoop
      (orderBySeq InstanceRow.seq (instanceRows.map row))
      (sortedBy (fun row => lex row.instanceSeq row.resource)
        (instanceRows.flatMap resources))
      (sortedBy (fun row => lex row.instanceSeq row.ordinal)
        (instanceRows.flatMap constants)) =
      .ok (instances.map (overRecord normalInstance)) := by
    have hrw : orderBySeq InstanceRow.seq (instanceRows.map row) =
        instanceRows.map row :=
      orderBySeq_of_pairwise (pairwise_map.mpr
        (hin.pairwise fun _ _ _ hro => hro.number))
    rw [hrw, sortedBy_rows hin (fun _ _ _ hro => hro.resources_owner)
        fun _ _ _ hro => hro.resources_order,
      sortedBy_rows hin (fun _ _ _ hro => hro.constants_owner)
        fun _ _ _ hro => hro.constants_order]
    exact instancesLoop_eq hin
  have hcl : recordRows clockRows = clocks := by
    rw [recordRows_eq hcc, overRecord_id, map_id]
  refine ⟨_, hwt, ?_, ?_⟩
  · have hnt : netsLoop (orderBySeq NetView.seq (netRows.map HistoricalNetRows.row))
        (orderEndpoints (netRows.flatMap fun net => net.drivers ++ net.sinks))
        (orderAliases (netRows.flatMap HistoricalNetRows.aliases)) =
        .ok (nets.map (overRecord normalNet)) := hlp
    simp only [readEmuirSqlite, sourcePorts, sourceInstances, hsc, hsr,
      hnt, hcl, hsh, hds, hwr, bind, Except.bind, pure, Except.pure]
    rw [readFields_eq, historicalForm_eq h, historicalFields]
  · have hnt : compactNets (netRows.map HistoricalNetRows.row)
        (netRows.flatMap fun net => net.drivers ++ net.sinks)
        (netRows.flatMap HistoricalNetRows.aliases) =
        .ok (nets.map (overRecord normalNet)) := hcm
    simp only [repackEmuir, sourceMetadata, sourcePorts, sourceInstances, hsc,
      hsr, hnt, hcl, hsh, hds, hwr, bind, Except.bind,
      pure, Except.pure]
    rw [historicalForm_eq h]
    rfl

/-!
## EmuIR storage: repacking

The normal form of a record is ready for the compact store and normal there. A compact store made
from a historical one reads back to what the historical one did.
-/

variable {sqlite : Affinity} {sizes : Sizes} {value record : Dict} {key : String} {j : Json}
  {f : Dict → Dict} {ports instances nets clocks : List Json}

/-! ## normal records -/

theorem setDefault_eq_self {v : Json} (h : get key record = some v) :
    setDefault key j record = record := by
  rw [setDefault, h]

theorem dropNull_eq_self (h : get key record ≠ some .null) : dropNull key record = record :=
  if_neg h

theorem present_ne_null : present key record ≠ some .null := by
  unfold present
  split_ifs with h
  · simp
  · exact fun heq => h (Option.some.inj heq)

theorem overItems_idem (hf : ∀ d, f (f d) = f d) (j : Json) :
    overItems f (overItems f j) = overItems f j := by
  cases j with
  | array items =>
    simp only [overItems, map_map]
    refine congrArg Json.array (map_congr_left fun item _ => ?_)
    cases item with
    | object d => exact congrArg Json.object (hf d)
    | _ => rfl
  | _ => rfl

theorem mapField_eq_self (hd : Ascending record)
    (h : overItems f j = j) (hj : get key record = some j) : mapField key f record = record := by
  unfold mapField
  rw [hj]
  show set key (overItems f j) record = record
  rw [h, set_eq_self hd hj]

theorem normalEndpoint_idem (record : Dict) :
    normalEndpoint (normalEndpoint record) = normalEndpoint record :=
  setDefault_eq_self (by rw [normalEndpoint, get_setDefault, if_pos rfl])

theorem normalPort_historicalPort (record : Dict) :
    normalPort (historicalPort record) = historicalPort record :=
  setDefault_eq_self (by
    rw [historicalPort, normalPort, get_dropNull, if_neg (by decide), get_setDefault, if_pos rfl])

theorem normalInstance_idem (record : Dict) :
    normalInstance (normalInstance record) = normalInstance record := by
  have hc : get "constant_connections" (normalInstance record) =
      some ((get "constant_connections" record).getD (.array [])) := by
    rw [normalInstance, get_dropNull, if_neg (by decide), get_setDefault, if_pos rfl]
  have hn : get "name" (normalInstance record) ≠ some .null := by
    rw [normalInstance, get_dropNull, if_pos rfl]
    exact present_ne_null
  show dropNull "name" (setDefault "constant_connections" _ (normalInstance record)) = _
  rw [setDefault_eq_self hc, dropNull_eq_self hn]

theorem ascending_normalNet (h : Ascending record) : Ascending (normalNet record) :=
  ascending_dropNull (ascending_dropNull (ascending_dropNull (ascending_dropNull
    (ascending_setDefault (ascending_mapField (ascending_mapField h))))))

theorem get_normalNet (k : String) : get k (normalNet record) =
      if k ∈ ["name", "yosys_bit", "bus_index", "fanout"] then present k record
      else if k = "aliases" then some (listOrEmpty k record)
      else if k ∈ ["drivers", "sinks"] then (get k record).map (overItems normalEndpoint)
      else get k record := by
  simp only [normalNet, present, getOrNone, listOrEmpty, get_dropNull, get_setDefault,
    get_mapField, mem_cons, not_mem_nil, or_false]
  by_cases h₁ : k = "fanout"
  · simp [h₁]
  by_cases h₂ : k = "bus_index"
  · simp [h₂]
  by_cases h₃ : k = "yosys_bit"
  · simp [h₃]
  by_cases h₄ : k = "name"
  · simp [h₄]
  by_cases h₅ : k = "aliases"
  · simp [h₅]
  by_cases h₆ : k = "sinks"
  · simp [h₆]
  by_cases h₇ : k = "drivers"
  · simp [h₇]
  simp [h₁, h₂, h₃, h₄, h₅, h₆, h₇]

theorem mapField_normalNet (h : Ascending record) (hk : key = "drivers" ∨ key = "sinks") :
    mapField key normalEndpoint (normalNet record) = normalNet record := by
  have hg : get key (normalNet record) = (get key record).map (overItems normalEndpoint) := by
    rw [get_normalNet]
    rcases hk with rfl | rfl <;> simp
  cases hj : get key record with
  | none =>
    rw [hj, Option.map_none] at hg
    rw [mapField, hg]
  | some j =>
    rw [hj, Option.map_some] at hg
    exact mapField_eq_self (ascending_normalNet h) (overItems_idem normalEndpoint_idem j) hg

theorem normalNet_idem (h : Ascending record) : normalNet (normalNet record) = normalNet
    record := by
  have ha : get "aliases" (normalNet record) = some (listOrEmpty "aliases" record) := by
    rw [get_normalNet]
    simp
  have hn : ∀ k ∈ ["name", "yosys_bit", "bus_index", "fanout"],
      get k (normalNet record) ≠ some .null := fun k hk => by
    rw [get_normalNet, if_pos hk]
    exact present_ne_null
  show dropNull "fanout" (dropNull "bus_index" (dropNull "yosys_bit" (dropNull "name"
    (setDefault "aliases" _ (mapField "sinks" _ (mapField "drivers" _ (normalNet record))))))) = _
  rw [mapField_normalNet h (.inl rfl), mapField_normalNet h (.inr rfl),
    setDefault_eq_self ha, dropNull_eq_self (hn "name" (by simp)),
    dropNull_eq_self (hn "yosys_bit" (by simp)), dropNull_eq_self (hn "bus_index" (by simp)),
    dropNull_eq_self (hn "fanout" (by simp))]

/-! ## normal records are ready -/

theorem getOrNone_of_present {record' : Dict} (h : get key record' = present key record) :
    getOrNone key record' = getOrNone key record := by
  rw [getOrNone, h, present]
  split_ifs with hn
  · rw [hn, Option.getD_none]
  · rw [Option.getD_some]

theorem CellReady.normal (h : CellReady record) : CellReady (normalInstance record) := by
  have hg : ∀ k, k ≠ "name" → k ≠ "constant_connections" →
      get k (normalInstance record) = get k record := fun k hn hc => by
    rw [normalInstance, get_dropNull, if_neg hn, get_setDefault, if_neg hc]
  have hn : getOrNone "name" (normalInstance record) = getOrNone "name" record := by
    refine getOrNone_of_present ?_
    have hs : get "name" (setDefault "constant_connections" (.array []) record) =
        get "name" record := by
      rw [get_setDefault, if_neg (by decide)]
    rw [normalInstance, get_dropNull, if_pos rfl, present, present, getOrNone, getOrNone, hs]
  exact {
    ascending := ascending_dropNull (ascending_setDefault h.ascending)
    id := by rw [hg _ (by decide) (by decide)]; exact h.id
    name := by rw [hn]; exact h.name
    type := by rw [hg _ (by decide) (by decide)]; exact h.type
    resources := by rw [hg _ (by decide) (by decide)]; exact h.resources }

theorem EndpointReady.normal (h : EndpointReady instances record) {instances' : List Json}
    (hi : instances'.map idOf = instances.map idOf) :
    EndpointReady instances' (normalEndpoint record) := by
  have hg : ∀ k, k ≠ "instance" → get k (normalEndpoint record) = get k record := fun k hk => by
    rw [normalEndpoint, get_setDefault, if_neg hk]
  have ho : getOrNone "instance" (normalEndpoint record) = getOrNone "instance" record := by
    rw [getOrNone, normalEndpoint, get_setDefault, if_pos rfl, Option.getD_some, getOrNone]
  exact {
    ascending := ascending_setDefault h.ascending
    owner := by rw [ho, hi]; exact h.owner
    port := by rw [hg _ (by decide)]; exact h.port
    bit := by rw [hg _ (by decide)]; exact h.bit }

theorem EndpointsReady.normal {record' : Dict} (h : EndpointsReady instances key record)
    {instances' : List Json} (hi : instances'.map idOf = instances.map idOf)
    (hg : get key record' = (get key record).map (overItems normalEndpoint)) :
    EndpointsReady instances' key record' := by
  obtain ⟨l, hl, hr⟩ := h
  refine ⟨l.map (overRecord normalEndpoint), by rw [hg, hl]; rfl, fun value hv => ?_⟩
  obtain ⟨p, he, rfl⟩ := mem_map.mp hv
  obtain ⟨d, rfl, hd⟩ := hr p he
  exact ⟨normalEndpoint d, rfl, hd.normal hi⟩

theorem NetReady.normal (h : NetReady instances record) {instances' : List Json}
    (hi : instances'.map idOf = instances.map idOf) : NetReady instances' (normalNet record) := by
  have hn : ∀ k ∈ ["name", "yosys_bit", "bus_index", "fanout"],
      getOrNone k (normalNet record) = getOrNone k record := fun k hk =>
    getOrNone_of_present (by rw [get_normalNet, if_pos hk])
  exact {
    ascending := ascending_normalNet h.ascending
    id := by rw [get_normalNet]; simpa using h.id
    name := by rw [hn _ (by simp)]; exact h.name
    yosysBit := by rw [hn _ (by simp)]; exact h.yosysBit
    busIndex := by rw [hn _ (by simp)]; exact h.busIndex
    fanout := by rw [hn _ (by simp)]; exact h.fanout
    cutClass := by rw [get_normalNet]; simpa using h.cutClass
    aliases := by rw [get_normalNet]; simpa [listOrEmpty] using h.aliases
    drivers := h.drivers.normal hi (by rw [get_normalNet]; simp)
    sinks := h.sinks.normal hi (by rw [get_normalNet]; simp) }

theorem map_idOf_overRecord {l : List Json}
    (hid : ∀ record, get "id" (f record) = get "id" record) :
    (l.map (overRecord f)).map idOf = l.map idOf := by
  rw [map_map]
  refine map_congr_left fun item _ => ?_
  cases item with
  | object record => exact congrArg (fun o => Option.getD o Json.null) (hid record)
  | _ => rfl

theorem ready_historicalFields (h : Ready value ports instances nets clocks) :
    Ready (historicalFields value ports instances nets clocks)
      (ports.map (overRecord historicalPort)) (instances.map (overRecord normalInstance))
      (nets.map (overRecord normalNet)) clocks := by
  have hi : (instances.map (overRecord normalInstance)).map idOf = instances.map idOf :=
    map_idOf_overRecord fun record => by
      rw [normalInstance, get_dropNull, if_neg (by decide), get_setDefault, if_neg (by decide)]
  have hnt : (nets.map (overRecord normalNet)).map idOf = nets.map idOf :=
    map_idOf_overRecord fun record => by
      rw [get_normalNet]
      simp
  obtain ⟨schema, hs⟩ := h.hasSchema
  refine {
    hasSchema := ⟨schema, by simp [historicalFields, display_eq, getOrNone, hs]⟩
    hasPorts := by simp [historicalFields, display_eq]
    portRecords := fun port hp => ?_
    hasInstances := by simp [historicalFields, display_eq]
    cells := fun inst hin => ?_
    cellIds := by rw [hi]; exact h.cellIds
    hasNets := by simp [historicalFields, display_eq]
    netRecords := fun net hn => ?_
    netIds := by rw [hnt]; exact h.netIds
    hasClocks := by simp [historicalFields, display_eq] }
  · obtain ⟨port, hm, rfl⟩ := mem_map.mp hp
    obtain ⟨r, rfl, hr⟩ := h.portRecords port hm
    exact ⟨historicalPort r, rfl, ascending_dropNull (ascending_setDefault hr)⟩
  · obtain ⟨inst, hm, rfl⟩ := mem_map.mp hin
    obtain ⟨r, rfl, hr⟩ := h.cells inst hm
    exact ⟨normalInstance r, rfl, hr.normal⟩
  · obtain ⟨net, hm, rfl⟩ := mem_map.mp hn
    obtain ⟨r, rfl, hr⟩ := h.netRecords net hm
    exact ⟨normalNet r, rfl, hr.normal hi⟩

theorem normalForm_historicalFields (h : Ready value ports instances nets clocks) :
    normalForm (historicalFields value ports instances nets clocks) =
      historicalFields value ports instances nets clocks := by
  have hp : overItems normalPort (.array (ports.map (overRecord historicalPort))) =
      .array (ports.map (overRecord historicalPort)) := by
    simp only [overItems, map_map]
    refine congrArg Json.array (map_congr_left fun port hpr => ?_)
    obtain ⟨r, rfl, -⟩ := h.portRecords port hpr
    exact congrArg Json.object (normalPort_historicalPort r)
  have hi : overItems normalInstance (.array (instances.map (overRecord normalInstance))) =
      .array (instances.map (overRecord normalInstance)) :=
    overItems_idem normalInstance_idem (.array instances)
  have hn : overItems normalNet (.array (nets.map (overRecord normalNet))) =
      .array (nets.map (overRecord normalNet)) := by
    simp only [overItems, map_map]
    refine congrArg Json.array (map_congr_left fun net hnt => ?_)
    obtain ⟨r, rfl, hr⟩ := h.netRecords net hnt
    exact congrArg Json.object (normalNet_idem hr.ascending)
  refine ext ascending_display ascending_display fun k => ?_
  simp [normalForm, historicalFields, display_eq, getOrNone, listOrEmpty, hp, hi, hn]

variable (sqlite sizes) in
theorem repack_of_ready (h : Ready value ports instances nets clocks)
    (hh : HistoricalReady ports instances) :
    ∃ store packed, writeEmuirSqliteV1 sqlite value = .ok store ∧
      readEmuirSqlite store = .ok (historicalForm value) ∧
      repackEmuir sqlite sizes store = .ok packed ∧
      readCompactEmuir packed = .ok (historicalForm value) := by
  obtain ⟨store, hw, hrd, hrp⟩ := historical_of_ready sqlite sizes h hh
  obtain ⟨packed, hp, hr⟩ := compact_of_ready sqlite sizes (ready_historicalFields h)
  refine ⟨store, packed, hw, hrd, ?_, ?_⟩
  · rw [hrp, historicalForm_eq h, hp]
  · rw [hr, normalForm_historicalFields h, historicalForm_eq h]

end EmuFlow.Storage
