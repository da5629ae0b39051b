import EmuFlow.Storage.CompactRecords

/-!
# EmuIR storage: the compact round trip

A value whose records are ready for the store is written, and read back in normal form.
-/

namespace EmuFlow.Storage

open Check SortedDict OwnedRows List

structure Ready (value : Dict) (ports instances nets clocks : List Json) : Prop where
  hasSchema : ∃ s, get "schema" value = some (.text s)
  hasPorts : get "ports" value = some (.array ports)
  portRecords : ∀ port ∈ ports, ∃ r, port = .object r ∧ Ascending r
  hasInstances : get "instances" value = some (.array instances)
  cells : ∀ inst ∈ instances, ∃ r, inst = .object r ∧ CellReady r
  cellIds : (instances.map idOf).Nodup
  hasNets : get "nets" value = some (.array nets)
  netRecords : ∀ net ∈ nets, ∃ r, net = .object r ∧ NetReady instances r
  netIds : (nets.map idOf).Nodup
  hasClocks : get "clocks" value = some (.array clocks)

variable {sqlite : Affinity} {sizes : Sizes} {value : Dict}
  {ports instances nets clocks : List Json} {s : Interns} {n : ℕ}

/-! ## the tables -/

structure RecordWritten (f : Dict → Dict) (seq : ℕ) (value : Json) (row : RecordRow) : Prop where
  number : row.seq = seq
  value : row.recordJson.value = overRecord f value

theorem recordRows_eq {f : Dict → Dict} {l : List Json} {rows : List RecordRow}
    (h : Numbered (RecordWritten f) n l rows) : recordRows rows = l.map (overRecord f) := by
  rw [recordRows, orderBySeq_of_pairwise (h.pairwise fun _ _ _ hr => hr.number)]
  exact h.map_eq fun _ _ _ hr => hr.value

theorem constantsOrEmpty_set (record : Dict) (h : Ascending record) :
    set "constant_connections" (constantsOrEmpty record) record = normalPort record := by
  refine ext (ascending_set h) (ascending_setDefault h) fun k => ?_
  rw [get_set, normalPort, get_setDefault, constantsOrEmpty]

theorem writePorts_spec (h : ∀ port ∈ ports, ∃ r, port = .object r ∧ Ascending r) :
    ∃ rows, numberedM writePort 0 ports () = .ok (rows, ()) ∧
      Numbered (RecordWritten normalPort) 0 ports rows :=
  numberedM_of_const (P := fun port => ∃ r, port = Json.object r ∧ Ascending r)
    (fun seq port hp => by
      obtain ⟨r, rfl, hr⟩ := hp
      exact ⟨_, rfl, rfl, congrArg Json.object (constantsOrEmpty_set r hr)⟩) h

theorem overRecord_id : overRecord id = id := by
  funext value
  cases value <;> rfl

theorem writeClocks_spec (clocks : List Json) :
    ∃ rows, numberedM writeClock 0 clocks () = .ok (rows, ()) ∧
      Numbered (RecordWritten id) 0 clocks rows :=
  numberedM_of_const (P := fun _ => True) (fun seq clock _ => ⟨_, rfl, rfl, by
    rw [overRecord_id]
    rfl⟩) fun _ _ => trivial

variable (sqlite sizes) in
theorem writeCells_spec (h : ∀ inst ∈ instances, ∃ r, inst = .object r ∧ CellReady r)
    (hs : s.Sound) :
    ∃ rows t, numberedM (writeCell sqlite sizes) 0 instances s = .ok (rows, t) ∧ t.Sound ∧
      s.Grows t ∧ Numbered (CellWritten t) 0 instances rows :=
  numberedM_spec (f := writeCell sqlite sizes) (G := Interns.Sound) (E := Interns.Grows)
    (P := fun inst => ∃ r, inst = Json.object r ∧ CellReady r) (R := CellWritten)
    Interns.Grows.refl (fun _ _ _ => Interns.Grows.trans)
    (fun s t seq inst cell hg hc => ⟨hc.seq, hc.id, fun payloads hp =>
      hc.read payloads (hg.payload.trans hp)⟩)
    (fun seq inst s hs hrd => by
      obtain ⟨r, rfl, hr⟩ := hrd
      exact writeCell_spec hs hr seq) instances 0 s hs h

variable (sqlite sizes) in
theorem writeNets_spec {cells : List CellRow} (hc : CellTable instances cells)
    (h : ∀ net ∈ nets, ∃ r, net = .object r ∧ NetReady instances r) (hs : s.Sound)
    (ho : OwnersSound sqlite cells s.owners) :
    ∃ rows t, numberedM (writeNet sqlite sizes cells) 0 nets s = .ok (rows, t) ∧
      (t.Sound ∧ OwnersSound sqlite cells t.owners) ∧ s.Grows t ∧
      Numbered (NetWritten cells t) 0 nets rows :=
  numberedM_spec (f := writeNet sqlite sizes cells)
    (G := fun s => s.Sound ∧ OwnersSound sqlite cells s.owners) (E := Interns.Grows)
    (P := fun net => ∃ r, net = Json.object r ∧ NetReady instances r) (R := NetWritten cells)
    Interns.Grows.refl (fun _ _ _ => Interns.Grows.trans)
    (fun s t seq net rows hg hrw => ⟨hrw.number, hrw.id, fun payloads pins hp hpn =>
      hrw.imaged payloads pins (hg.payload.trans hp) (hg.pin.trans hpn)⟩)
    (fun seq net s hgd hrd => by
      obtain ⟨r, rfl, hr⟩ := hrd
      exact writeNet_spec hc hgd.1 hgd.2 hr seq) nets 0 s ⟨hs, ho⟩ h

theorem requireUnique_of_ids {β : Type} {column : String} {l : List Json} {rows : List β}
    {idColumn : β → Sql} {R : ℕ → Json → β → Prop} (h : Numbered R n l rows)
    (hid : ∀ n a b, R n a b → ∃ s, idColumn b = .text s ∧ idOf a = .text s)
    (hnd : (l.map idOf).Nodup) : requireUnique column (rows.map idColumn) = .ok () := by
  refine raiseIf_eq_ok.mpr (not_not.mpr ?_)
  have hm : (rows.map idColumn).map Sql.toJson = l.map idOf := by
    rw [map_map]
    refine h.map_eq fun n a b hab => ?_
    obtain ⟨s, hs, ha⟩ := hid n a b hab
    rw [Function.comp_apply, hs, ha, Sql.toJson]
  exact Nodup.of_map Sql.toJson (hm ▸ hnd)

theorem netImages {cells : List CellRow} {rows : List NetRows}
    (h : Numbered (NetWritten cells s) n nets rows) :
    Numbered NetImaged n nets (rows.map (NetRows.image cells s.pin.table s.payload.table)) := by
  induction h with
  | nil => exact .nil
  | cons hr _ ih => exact .cons (hr.imaged _ _ prefix_rfl prefix_rfl) ih

variable (sqlite) in
theorem writeMetadata_spec (h : ∃ s, get "schema" value = some (.text s)) :
    ∃ metadata, writeMetadata sqlite value = .ok metadata ∧
      metadata.logicalSchema.toJson = getOrNone "schema" value ∧
      metadata.designJson.value = getOrNone "design" value ∧
      metadata.warningsJson.value = listOrEmpty "warnings" value := by
  obtain ⟨schema, hs⟩ := h
  refine ⟨{ logicalSchema := .text schema, designJson := json (getOrNone "design" value),
            warningsJson := json ((get "warnings" value).getD (.array [])) }, ?_, ?_, rfl, rfl⟩
  · simp only [writeMetadata, getOrNone, hs, Option.getD_some, textColumn_text, notNull_text,
      bind, Except.bind, pure, Except.pure]
  · show Json.text schema = getOrNone "schema" value
    rw [getOrNone, hs, Option.getD_some]

theorem writeCompactEmuir_eq {metadata : Metadata} {portRows clockRows : List RecordRow}
    {cellRows : List CellRow} {netRows : List NetRows} {t : Interns}
    (h : Ready value ports instances nets clocks)
    (hm : writeMetadata sqlite value = .ok metadata)
    (hp : numberedM writePort 0 ports () = .ok (portRows, ()))
    (hcs : numberedM (writeCell sqlite sizes) 0 instances {} = .ok (cellRows, s))
    (hc : Numbered (CellWritten s) 0 instances cellRows)
    (hnt : numberedM (writeNet sqlite sizes cellRows) 0 nets { s with owners := [] } =
      .ok (netRows, t))
    (hn : Numbered (NetWritten cellRows t) 0 nets netRows)
    (hcl : numberedM writeClock 0 clocks () = .ok (clockRows, ())) :
    writeCompactEmuir sqlite sizes value =
      .ok { metadata := metadata, payloads := t.payload.table, cells := cellRows,
            nets := netRows.map NetRows.row, pinNames := t.pin.table,
            endpoints := netRows.flatMap fun net => net.drivers ++ net.sinks,
            aliases := netRows.flatMap NetRows.aliases, ports := portRows,
            clocks := clockRows } := by
  have hu : requireUnique "cell_records.id" (cellRows.map CellRow.id) = .ok () :=
    requireUnique_of_ids hc (fun _ _ _ hce => hce.id) h.cellIds
  have hun : requireUnique "net_records.id" (netRows.map fun net => net.row.id) = .ok () :=
    requireUnique_of_ids hn (fun _ _ _ hne => hne.id) h.netIds
  have hr : ∀ {name : String} {l : List Json}, get name value = some (.array l) →
      recordsAt name value = .ok l := fun hl => by
    rw [recordsAt, hl]
    rfl
  simp only [writeCompactEmuir, hm, hr h.hasPorts, hr h.hasInstances,
    hr h.hasNets, hr h.hasClocks, hp, hcs, hu, hnt, hun,
    hcl, bind, Except.bind, pure, Except.pure]

variable (sqlite sizes) in
/-- The compact store of a ready design reads back as its normal form. -/
theorem compact_of_ready (h : Ready value ports instances nets clocks) :
    ∃ store, writeCompactEmuir sqlite sizes value = .ok store ∧
      readCompactEmuir store = .ok (normalForm value) := by
  obtain ⟨metadata, hmt, hsc, hds, hwr⟩ := writeMetadata_spec sqlite h.hasSchema
  obtain ⟨portRows, hpt, hpr⟩ := writePorts_spec h.portRecords
  obtain ⟨cellRows, s, hcs, hsn, -, hcl⟩ := writeCells_spec sqlite sizes
    (s := {}) h.cells ⟨Interner.sound_empty, Interner.sound_empty⟩
  obtain ⟨netRows, t, hns, -, hgr, hnt⟩ := writeNets_spec sqlite sizes
    (s := { s with owners := [] }) (cellTable_of_written hcl) h.netRecords
    ⟨hsn.payload, hsn.pin⟩ fun _ h => absurd h not_mem_nil
  obtain ⟨clockRows, hck, hcc⟩ := writeClocks_spec clocks
  refine ⟨_, writeCompactEmuir_eq h hmt hpt hcs hcl hns hnt hck, ?_⟩
  have hin : (orderBySeq CellRow.seq cellRows).mapM (compactInstance t.payload.table) =
      .ok (instances.map (overRecord normalInstance)) := by
    rw [orderBySeq_of_pairwise (hcl.pairwise fun _ _ _ hce => hce.seq)]
    exact hcl.mapM_eq fun _ _ _ hce => hce.read _ hgr.payload
  have him := netImages hnt
  obtain ⟨hor, hen, hal⟩ := orders_eq him
  have hrd : compactNets ((netRows.map NetRows.row).map (NetRow.view t.payload.table))
      ((netRows.flatMap fun net => net.drivers ++ net.sinks).map
        (EndpointRow.view cellRows t.pin.table t.payload.table))
      (netRows.flatMap NetRows.aliases) = .ok (nets.map (overRecord normalNet)) := by
    have hlp := (netsLoops_eq him).1
    rw [← hor, ← hen, ← hal] at hlp
    simp only [map_map, flatMap_map, map_flatMap, map_append] at hlp ⊢
    exact hlp
  simp only [readCompactEmuir, hin, hrd, recordRows_eq hpr,
    recordRows_eq hcc, hsc, hds, hwr, bind, Except.bind, pure, Except.pure,
    normalForm, listOrEmpty, h.hasPorts, h.hasInstances, h.hasNets, h.hasClocks, Option.getD_some,
      overItems,
    overRecord_id, map_id]

/-!
## EmuIR storage: records through the historical store

For each kind of record one lemma: the writer goes through, and from the rows it makes the reader
gets the normal form of the record. Flags and resources have columns of their own here, and a port
loses a null name.
-/

variable {sqlite : Affinity} {record d : Dict} {key k : String}

/-! ## constants -/

structure ConstantReady (record : Dict) : Prop where
  ascending : Ascending record
  bit : ∃ n, get "bit" record = some (.int n) ∧ isInt64 n = true
  value : ∃ s, get "value" record = some (.text s)

structure InstanceConstantReady (record : Dict) : Prop extends ConstantReady record where
  port : ∃ s, get "port" record = some (.text s)

structure PortConstantWritten (portSeq ordinal : ℕ) (value : Json) (row : PortConstantRow) :
    Prop where
  owner : row.portSeq = portSeq
  ordinal : row.ordinal = ordinal
  read : portConstantRecord row = .ok value

structure InstanceConstantWritten (instanceSeq ordinal : ℕ) (value : Json)
    (row : InstanceConstantRow) : Prop where
  owner : row.instanceSeq = instanceSeq
  ordinal : row.ordinal = ordinal
  read : instanceConstantRecord row = .ok value

theorem writePortConstant_spec (h : ConstantReady record) (portSeq ordinal : ℕ) :
    ∃ row, writePortConstant sqlite portSeq ordinal (.object record) () = .ok (row, ()) ∧
      PortConstantWritten portSeq ordinal (.object record) row := by
  obtain ⟨bit, hbt, hi⟩ := h.bit
  obtain ⟨value, hvl⟩ := h.value
  refine ⟨{ portSeq := portSeq, ordinal := ordinal, bit := .integer bit, value := .text value,
            extrasJson := extras record ["bit", "value"] }, ?_, rfl, rfl, ?_⟩
  · simp only [writePortConstant, asRecord, getItem, lookupOrRaise, hbt, hvl, textColumn_text,
      integerColumn_int hi, notNull_text, notNull_integer, bind, Except.bind, pure, Except.pure]
  simp only [portConstantRecord, decodeRecord_extras, bind, Except.bind, pure, Except.pure]
  refine congrArg (fun d => Except.ok (Json.object d))
    (ext (ascending_update ascending_display) h.ascending fun k => ?_)
  rw [get_update (ascending_without h.ascending), get_without, display_eq]
  by_cases hb : k = "bit"
  · simp [hb, hbt, Sql.toJson]
  by_cases hv : k = "value"
  · simp [hv, hvl, Sql.toJson]
  · simp [hb, hv]

theorem writeInstanceConstant_spec (h : InstanceConstantReady record) (instanceSeq ordinal : ℕ) :
    ∃ row, writeInstanceConstant sqlite instanceSeq ordinal (.object record) () = .ok (row, ()) ∧
      InstanceConstantWritten instanceSeq ordinal (.object record) row := by
  obtain ⟨bit, hbt, hi⟩ := h.bit
  obtain ⟨value, hvl⟩ := h.value
  obtain ⟨port, hpr⟩ := h.port
  refine ⟨{ instanceSeq := instanceSeq, ordinal := ordinal, port := .text port,
            bit := .integer bit, value := .text value,
            extrasJson := extras record ["port", "bit", "value"] }, ?_, rfl, rfl, ?_⟩
  · simp only [writeInstanceConstant, asRecord, getItem, lookupOrRaise, hpr, hbt, hvl,
      textColumn_text, integerColumn_int hi, notNull_text, notNull_integer, bind, Except.bind,
      pure, Except.pure]
  simp only [instanceConstantRecord, decodeRecord_extras, bind, Except.bind, pure, Except.pure]
  refine congrArg (fun d => Except.ok (Json.object d))
    (ext (ascending_update ascending_display) h.ascending fun k => ?_)
  rw [get_update (ascending_without h.ascending), get_without, display_eq]
  by_cases hp : k = "port"
  · simp [hp, hpr, Sql.toJson]
  by_cases hb : k = "bit"
  · simp [hb, hbt, Sql.toJson]
  by_cases hv : k = "value"
  · simp [hv, hvl, Sql.toJson]
  · simp [hp, hb, hv]

def ConstantsReady (ready : Dict → Prop) (record : Dict) : Prop :=
  ∃ l, constantsOrEmpty record = .array l ∧ ∀ value ∈ l, ∃ d, value = .object d ∧ ready d

/-! ## ports -/

/-- A flag that is there is `True` or `False`. -/
def FlagReady (key : String) (record : Dict) : Prop :=
  get key record = none ∨ ∃ b, get key record = some (.bool b)

variable (sqlite) in
theorem flagColumn_spec (h : FlagReady key record) :
    ∃ column, flagColumn sqlite key record = .ok column ∧ ∀ d k, get key d = none →
        get k (setFlag key column d) = if k = key then get key record else get k d := by
  unfold flagColumn
  rcases h with h | ⟨b, h⟩
  · refine ⟨.null, by rw [h], fun d k hd => ?_⟩
    rw [setFlag, if_pos rfl, h]
    split_ifs with hk
    · rw [hk, hd]
    · rfl
  · refine ⟨.integer (if b then 1 else 0), ?_, fun d k _ => ?_⟩
    · rw [h]
      cases b with
      | false => exact integerColumn_int (n := 0) (by decide)
      | true => exact integerColumn_int (n := 1) (by decide)
    · rw [setFlag, if_neg (by simp), get_set, h]
      cases b <;> rfl

theorem ascending_setFlag {column : Sql} (h : Ascending d) : Ascending (setFlag key column d) := by
  unfold setFlag
  split_ifs
  · exact h
  · exact ascending_set h

structure PortReady (record : Dict) : Prop where
  ascending : Ascending record
  id : ∃ s, get "id" record = some (.text s)
  name : TextOrNull (getOrNone "name" record)
  direction : ∃ s, get "direction" record = some (.text s)
  width : ∃ n, get "width" record = some (.int n) ∧ isInt64 n = true
  clock : FlagReady "clock" record
  reset : FlagReady "reset" record
  constants : ConstantsReady ConstantReady record

structure PortWritten (seq : ℕ) (value : Json) (rows : PortRow × List PortConstantRow) :
    Prop where
  number : rows.1.seq = seq
  id : ∃ s, rows.1.id = .text s ∧ idOf value = .text s
  owner : ∀ row ∈ rows.2, row.portSeq = seq
  order : rows.2.Pairwise fun a b => a.ordinal < b.ordinal
  read : portRecord rows.1 rows.2 = .ok (overRecord (fun d => dropNull "name" (normalPort d)) value)

theorem writePortRow_spec (h : PortReady record) (seq : ℕ) :
    ∃ rows, writePortRow sqlite seq (.object record) () = .ok (rows, ()) ∧
      PortWritten seq (.object record) rows := by
  obtain ⟨id, hid⟩ := h.id
  obtain ⟨direction, hdr⟩ := h.direction
  obtain ⟨width, hwd, hin⟩ := h.width
  obtain ⟨clock, hcc, hst⟩ := flagColumn_spec sqlite h.clock
  obtain ⟨reset, hrt, hsr⟩ := flagColumn_spec sqlite h.reset
  obtain ⟨l, hl, hrd⟩ := h.constants
  obtain ⟨rows, hrw, hwr⟩ := numberedM_of_const (n := 0)
    (f := writePortConstant sqlite seq) (R := PortConstantWritten seq) (x := ())
    (P := fun value => ∃ d, value = Json.object d ∧ ConstantReady d) (fun ordinal value hvl => by
      obtain ⟨d, rfl, hd⟩ := hvl
      exact writePortConstant_spec hd seq ordinal) hrd
  refine ⟨({ seq := seq, id := .text id, name := columnOf (getOrNone "name" record),
             direction := .text direction, width := .integer width, clock := clock,
             reset := reset, extrasJson := extras record portColumns }, rows), ?_, rfl,
    ⟨id, rfl, by simp [idOf, getOrNone, hid]⟩, ?_,
    hwr.pairwise fun _ _ _ hro => hro.ordinal, ?_⟩
  · simp only [writePortRow, asRecord, getItem, lookupOrRaise, hid, hdr, hwd,
      textColumn_of h.name, hcc, hrt, hl, iterate, hrw, textColumn_text,
      integerColumn_int hin, notNull_text, notNull_integer, bind, Except.bind, pure, Except.pure]
  · exact fun row hro => by
      obtain ⟨_, _, hw⟩ := hwr.exists_of_mem hro
      exact hw.owner
  have hcs : rows.mapM portConstantRecord = .ok l :=
    (hwr.mapM_eq fun _ _ _ hro => hro.read).trans (congrArg Except.ok (map_id l))
  simp only [portRecord, hcs, decodeRecord_extras, bind, Except.bind, pure, Except.pure,
    overRecord]
  generalize hbs : update (display [("id", (Sql.text id).toJson),
    ("direction", (Sql.text direction).toJson), ("width", (Sql.integer width).toJson),
    ("constant_connections", Json.array l)]) (without portColumns record) = base
  have hgt : ∀ k, get k base = _ := fun k => by
    rw [← hbs, get_update (ascending_without h.ascending), get_without, display_eq]
  have hcl : get "clock" (setPresent "name" (columnOf (getOrNone "name" record)) base) =
      none := by
    rw [get_setPresent (.inl h.name)]
    simp [hgt, portColumns]
  have hrs : get "reset" (setFlag "clock" clock (setPresent "name"
      (columnOf (getOrNone "name" record)) base)) = none := by
    rw [hst _ _ hcl, get_setPresent (.inl h.name)]
    simp [hgt, portColumns]
  refine congrArg (fun d => Except.ok (Json.object d)) (ext ?_ ?_ fun k => ?_)
  · exact ascending_setFlag (ascending_setFlag (ascending_setPresent
      (hbs ▸ ascending_update ascending_display)))
  · exact ascending_dropNull (ascending_setDefault h.ascending)
  rw [hsr _ _ hrs, hst _ _ hcl, get_setPresent (.inl h.name), hgt,
    hgt, normalPort, get_dropNull, get_setDefault]
  by_cases hk : k ∈ portColumns
  · simp only [portColumns, mem_cons, not_mem_nil, or_false] at hk
    have hcn : (get "constant_connections" record).getD (.array []) = .array l := hl
    rcases hk with rfl | rfl | rfl | rfl | rfl | rfl | rfl <;>
      simp [portColumns, present, getOrNone, get_setDefault, hid, hdr, hwd, Sql.toJson,
        hcn]
  · rw [if_neg hk]
    simp only [portColumns, mem_cons, not_mem_nil, or_false, not_or] at hk
    simp [hk]

/-! ## instances -/

structure InstanceReady (record : Dict) : Prop where
  ascending : Ascending record
  id : ∃ s, get "id" record = some (.text s)
  name : TextOrNull (getOrNone "name" record)
  type : ∃ s, get "type" record = some (.text s)
  resources : ∃ d, get "resources" record = some (.object d) ∧ Ascending d ∧
    ∀ item ∈ d, ∃ n, item.2 = .int n ∧ isInt64 n = true
  constants : ConstantsReady InstanceConstantReady record

structure InstanceWritten (seq : ℕ) (value : Json) (rows : InstanceRows) : Prop where
  number : rows.row.seq = seq
  id : ∃ s, rows.row.id = .text s ∧ idOf value = .text s
  resources_owner : ∀ row ∈ rows.resources, row.instanceSeq = seq
  resources_order : rows.resources.Pairwise fun a b => a.resource < b.resource
  constants_owner : ∀ row ∈ rows.constants, row.instanceSeq = seq
  constants_order : rows.constants.Pairwise fun a b => a.ordinal < b.ordinal
  read : instanceRecord rows.row rows.resources rows.constants =
    .ok (overRecord normalInstance value)

theorem get_setText {value : Option Json} : get k (setText key (value.map json) d) =
      if k = key then value.or (get key d) else get k d := by
  cases value with
  | none =>
    rw [Option.map_none, setText, Option.none_or]
    split_ifs with hk
    · rw [hk]
    · rfl
  | some value =>
    rw [Option.map_some, setText, Option.some_or]
    exact get_set

theorem ascending_setText {text : Option JsonText} (h : Ascending d) :
    Ascending (setText key text d) := by
  unfold setText
  split
  · exact h
  · exact ascending_set h

def resourceRow (seq : ℕ) (item : String × Json) : ResourceRow where
  instanceSeq := seq
  resource := item.1
  amount := columnOf item.2

theorem writeResources_spec (h : ∀ item ∈ d, ∃ n, item.2 = .int n ∧ isInt64 n = true) (seq : ℕ) :
    d.mapM (writeResource sqlite seq) = .ok (d.map (resourceRow seq)) := by
  refine mapM_eq_ok_map fun item hi => ?_
  obtain ⟨n, hn, hin⟩ := h item hi
  simp only [writeResource, hn, integerColumn_int hin, notNull_integer, bind, Except.bind, pure,
    Except.pure, resourceRow, columnOf]

theorem display_resources (hd : Ascending d)
    (h : ∀ item ∈ d, ∃ n, item.2 = .int n ∧ isInt64 n = true) (seq : ℕ) :
    display ((d.map (resourceRow seq)).map fun row => (row.resource, row.amount.toJson)) = d := by
  have hm : (d.map (resourceRow seq)).map (fun row => (row.resource, row.amount.toJson)) = d := by
    rw [map_map]
    refine (map_congr_left fun item hi => ?_).trans (map_id d)
    obtain ⟨n, hn, -⟩ := h item hi
    show (item.1, (columnOf item.2).toJson) = item
    rw [hn, columnOf, Sql.toJson, ← hn]
  rw [hm, display_eq_self hd]

theorem writeInstanceRow_spec (h : InstanceReady record) (seq : ℕ) :
    ∃ rows, writeInstanceRow sqlite seq (.object record) () = .ok (rows, ()) ∧
      InstanceWritten seq (.object record) rows := by
  obtain ⟨id, hid⟩ := h.id
  obtain ⟨type, ht⟩ := h.type
  obtain ⟨resources, hrs, ha, ham⟩ := h.resources
  obtain ⟨l, hl, hrd⟩ := h.constants
  obtain ⟨rows, hrw, hwr⟩ := numberedM_of_const (n := 0)
    (f := writeInstanceConstant sqlite seq) (R := InstanceConstantWritten seq) (x := ())
    (P := fun value => ∃ d, value = Json.object d ∧ InstanceConstantReady d)
    (fun ordinal value hv => by
      obtain ⟨d, rfl, hd⟩ := hv
      exact writeInstanceConstant_spec hd seq ordinal) hrd
  refine ⟨{ row := { seq := seq, id := .text id, name := columnOf (getOrNone "name" record),
                     type := .text type, parametersJson := (get "parameters" record).map json,
                     attributesJson := (get "attributes" record).map json,
                     extrasJson := extras record cellColumns },
            resources := resources.map (resourceRow seq), constants := rows }, ?_, rfl,
    ⟨id, rfl, by simp [idOf, getOrNone, hid]⟩, ?_, ?_, ?_,
    hwr.pairwise fun _ _ _ hr => hr.ordinal, ?_⟩
  · simp only [writeInstanceRow, asRecord, getItem, lookupOrRaise, hid, ht, hrs,
      textColumn_of h.name, hl, iterate, hrw, textColumn_text, notNull_text,
      writeResources_spec ham, bind, Except.bind, pure, Except.pure]
  · exact fun row hr => by
      obtain ⟨item, -, rfl⟩ := mem_map.mp hr
      rfl
  · exact pairwise_map.mpr ha
  · exact fun row hr => by
      obtain ⟨_, _, hw⟩ := hwr.exists_of_mem hr
      exact hw.owner
  have hc : rows.mapM instanceConstantRecord = .ok l :=
    (hwr.mapM_eq fun _ _ _ hr => hr.read).trans (congrArg Except.ok (map_id l))
  simp only [instanceRecord, hc, decodeRecord_extras, display_resources ha ham, bind,
    Except.bind, pure, Except.pure, overRecord]
  refine congrArg (fun d => Except.ok (Json.object d)) (ext ?_ ?_ fun k => ?_)
  · exact ascending_setText (ascending_setText (ascending_setPresent
      (ascending_update ascending_display)))
  · exact ascending_dropNull (ascending_setDefault h.ascending)
  simp only [get_setText, get_setPresent (.inl h.name),
    get_update (ascending_without h.ascending), get_without]
  simp only [display_eq, foldl_cons, foldl_nil, get_set, get_nil, normalInstance,
    get_dropNull, get_setDefault, Sql.toJson, present]
  by_cases hk : k ∈ cellColumns
  · simp only [cellColumns, mem_cons, not_mem_nil, or_false] at hk
    have hcn : (get "constant_connections" record).getD (.array []) = .array l := hl
    rcases hk with rfl | rfl | rfl | rfl | rfl | rfl | rfl <;>
      simp [cellColumns, getOrNone, get_setDefault, hid, ht, hrs, hcn]
  · rw [if_neg hk]
    simp only [cellColumns, mem_cons, not_mem_nil, or_false, not_or] at hk
    simp [hk]

/-! ## nets -/

structure EndpointRowWritten (netSeq role ordinal : ℕ) (value : Json) (child : EndpointView) :
    Prop where
  owner : child.netSeq = netSeq
  ordinal : child.ordinal = ordinal
  stored : EndpointStored role value child

variable {instances : List Json}

theorem writeEndpointRow_spec (h : EndpointReady instances record) (netSeq role ordinal : ℕ) :
    ∃ child, writeEndpointRow sqlite netSeq role ordinal (.object record) () = .ok (child, ()) ∧
      EndpointRowWritten netSeq role ordinal (.object record) child := by
  obtain ⟨port, hp⟩ := h.port
  obtain ⟨bit, hb, hi⟩ := h.bit
  have ho : TextOrNull (getOrNone "instance" record) :=
    h.owner.imp_right fun ⟨id, hid, _⟩ => ⟨id, hid⟩
  refine ⟨{ netSeq := netSeq, role := role, ordinal := ordinal, instanceSeq := none,
            instanceId := columnOf (getOrNone "instance" record), port := .text port,
            bit := .integer bit, extrasJson := some (extras record endpointColumns) }, ?_, rfl, rfl,
    rfl, ?_, by simp⟩
  · simp only [writeEndpointRow, asRecord, getItem, lookupOrRaise, hp, hb,
      textColumn_of ho, textColumn_text, integerColumn_int hi, notNull_text, notNull_integer,
      bind, Except.bind, pure, Except.pure]
  · refine endpointRecord_eq h.ascending hp hb ?_ rfl rfl rfl
    show (columnOf (getOrNone "instance" record)).toJson = _
    rcases ho with hn | ⟨id, hid⟩
    · rw [hn]
      rfl
    · rw [hid]
      rfl

def HistoricalNetRows.image (rows : HistoricalNetRows) : NetImage where
  row := rows.row
  names := rows.aliases
  drivers := rows.drivers
  sinks := rows.sinks

structure NetRowWritten (seq : ℕ) (value : Json) (rows : HistoricalNetRows) : Prop where
  id : ∃ s, rows.row.id = .text s ∧ idOf value = .text s
  imaged : NetImaged seq value rows.image

variable (sqlite) in
theorem writeEndpointRows_spec (netSeq role : ℕ) {l : List Json}
    (h : ∀ value ∈ l, ∃ d, value = .object d ∧ EndpointReady instances d) :
    ∃ rows, numberedM (writeEndpointRow sqlite netSeq role) 0 l () = .ok (rows, ()) ∧
      Numbered (EndpointRowWritten netSeq role) 0 l rows :=
  numberedM_of_const (P := fun value => ∃ d, value = Json.object d ∧ EndpointReady instances d)
    (fun ordinal value hv => by
      obtain ⟨d, rfl, hd⟩ := hv
      exact writeEndpointRow_spec hd netSeq role ordinal) h

theorem endpointRows_stored {netSeq role n : ℕ} {l : List Json} {rows : List EndpointView}
    (h : Numbered (EndpointRowWritten netSeq role) n l rows) :
    Forall₂ (EndpointStored role) l rows := by
  induction h with
  | nil => exact .nil
  | cons hr _ ih => exact .cons hr.stored ih

theorem writeNetRow_spec (h : NetReady instances record) (seq : ℕ) :
    ∃ rows, writeNetRow sqlite seq (.object record) () = .ok (rows, ()) ∧
      NetRowWritten seq (.object record) rows := by
  obtain ⟨id, hid⟩ := h.id
  obtain ⟨cut, hc⟩ := h.cutClass
  obtain ⟨names, hn, hnm⟩ := h.aliases
  obtain ⟨driverValues, hdv, hd⟩ := h.drivers
  obtain ⟨sinkValues, hss, hsk⟩ := h.sinks
  obtain ⟨aliasRows, ha, har⟩ := writeAliases_spec sqlite seq () hnm
  obtain ⟨driverRows, hwr, hdr⟩ :=
    writeEndpointRows_spec sqlite seq 0 hd
  obtain ⟨sinkRows, hwt, hs⟩ := writeEndpointRows_spec sqlite seq 1 hsk
  obtain ⟨hal, has, han⟩ := aliases_owned har
  refine ⟨{ row := { seq := seq, id := .text id, name := columnOf (getOrNone "name" record),
                     yosysBit := columnOf (getOrNone "yosys_bit" record),
                     busIndex := columnOf (getOrNone "bus_index" record),
                     fanout := columnOf (getOrNone "fanout" record), cutClass := .text cut,
                     extrasJson := some (extras record netColumns) },
            aliases := aliasRows, drivers := driverRows, sinks := sinkRows }, ?_,
    ⟨id, rfl, by simp [idOf, getOrNone, hid]⟩, rfl, hal, has,
    fun child hch => ?_, hdr.pairwise fun _ _ _ hr => hr.ordinal,
    hs.pairwise fun _ _ _ hr => hr.ordinal, record, rfl, ?_⟩
  · simp only [writeNetRow, asRecord, getItem, lookupOrRaise, hid, hc, hn, hdv, hss,
      textColumn_of h.name, textColumn_text, notNull_text, integerColumn_of h.yosysBit,
      integerColumn_of h.busIndex, integerColumn_of h.fanout, iterate, ha, hwr,
      hwt, bind, Except.bind, pure, Except.pure]
  · rcases List.mem_append.mp hch with hch | hch
    · obtain ⟨_, _, hw⟩ := hdr.exists_of_mem hch
      exact hw.owner
    · obtain ⟨_, _, hw⟩ := hs.exists_of_mem hch
      exact hw.owner
  · exact {
      ascending := h.ascending
      id := ⟨id, hid, rfl⟩
      cutClass := ⟨cut, hc, rfl⟩
      name := ⟨h.name, rfl⟩
      yosysBit := ⟨h.yosysBit, rfl⟩
      busIndex := ⟨h.busIndex, rfl⟩
      fanout := ⟨h.fanout, rfl⟩
      extrasJson := rfl
      aliases := by rw [hn]; exact congrArg Json.array han.symm
      drivers := ⟨driverValues, hdv, endpointRows_stored hdr⟩
      sinks := ⟨sinkValues, hss, endpointRows_stored hs⟩ }

end EmuFlow.Storage
