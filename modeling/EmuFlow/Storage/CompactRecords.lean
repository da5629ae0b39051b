import EmuFlow.Lib.Keyed
import EmuFlow.Storage.StoredNets

/-!
# EmuIR storage: records through the compact store

What the writer's calls keep of its two vocabularies, and for each kind of record one lemma: the
writer goes through, and from the rows it makes the reader gets the normal form of the record,
whatever has been interned since.
-/

namespace EmuFlow.Storage

open Check SortedDict OwnedRows List Interner Option

variable {sqlite : Affinity} {sizes : Sizes} {s t u : Interns} {record : Dict}

/-! ## the vocabularies -/

structure Interns.Sound (s : Interns) : Prop where
  payload : Interner.Sound s.payload
  pin : Interner.Sound s.pin

/-- No row goes. -/
structure Interns.Grows (s t : Interns) : Prop where
  payload : s.payload.table <+: t.payload.table
  pin : s.pin.table <+: t.pin.table

theorem Interns.Grows.refl (s : Interns) : s.Grows s := ⟨prefix_rfl, prefix_rfl⟩

theorem Interns.Grows.trans (h : s.Grows t) (h' : t.Grows u) : s.Grows u :=
  ⟨h.payload.trans h'.payload, h.pin.trans h'.pin⟩

variable (sizes) in
theorem callPayload_spec (hs : s.Sound) (value : JsonText) :
    row (s.callPayload sizes value).2.payload.table (s.callPayload sizes value).1 =
        some value ∧
      s.Grows (s.callPayload sizes value).2 ∧ (s.callPayload sizes value).2.Sound ∧
      (s.callPayload sizes value).2.owners = s.owners := by
  obtain ⟨hr, hp, hsn⟩ := call_spec (fun text => sizes.payload text + 128) 8192
    (32 * 1024 * 1024) hs.payload value
  exact ⟨hr, ⟨hp, prefix_rfl⟩, ⟨hsn, hs.pin⟩, rfl⟩

variable (sizes) in
theorem callPin_spec (hs : s.Sound) (name : Sql) :
    row (s.callPin sizes name).2.pin.table (s.callPin sizes name).1 = some name ∧
      s.Grows (s.callPin sizes name).2 ∧ (s.callPin sizes name).2.Sound ∧
      (s.callPin sizes name).2.owners = s.owners := by
  obtain ⟨hr, hp, hsn⟩ := call_spec (fun text => sizes.pin text + 128) 8192
    (32 * 1024 * 1024) hs.pin name
  exact ⟨hr, ⟨prefix_rfl, hp⟩, ⟨hs.payload, hsn⟩, rfl⟩

variable (sizes) in
theorem callOptional_spec (hs : s.Sound) (value : Option Json) :
    (∀ payloads, (s.callOptional sizes value).2.payload.table <+: payloads →
        (s.callOptional sizes value).1.bind (row payloads) = value.map json) ∧
      s.Grows (s.callOptional sizes value).2 ∧ (s.callOptional sizes value).2.Sound := by
  cases value with
  | none => exact ⟨fun _ _ => rfl, .refl s, hs⟩
  | some value =>
    obtain ⟨hr, hg, hsn, -⟩ := callPayload_spec sizes hs (json value)
    exact ⟨fun payloads hp => row_of_prefix hp hr, hg, hsn⟩

/-! ## instances -/

structure CellReady (record : Dict) : Prop where
  ascending : Ascending record
  id : ∃ s, get "id" record = some (.text s)
  name : TextOrNull (getOrNone "name" record)
  type : ∃ s, get "type" record = some (.text s)
  resources : ∃ d, get "resources" record = some (.object d)

def idOf : Json → Json
  | .object record => getOrNone "id" record
  | _ => .null

/-- The row gives the normal form of the instance back. -/
structure CellWritten (s : Interns) (seq : ℕ) (value : Json) (cell : CellRow) : Prop where
  seq : cell.seq = seq
  id : ∃ s, cell.id = .text s ∧ idOf value = .text s
  read : ∀ payloads, s.payload.table <+: payloads →
    compactInstance payloads cell = .ok (overRecord normalInstance value)

variable {payloads : List JsonText}

theorem get_setDecoded {key k : String} {seq : Option ℕ}
    {value : Option Json} {d : Dict}
    (h : seq.bind (row payloads) = value.map json) :
    get k (setDecoded key seq payloads d) = if k = key then value.or (get key d) else get k d := by
  unfold setDecoded
  rw [h]
  cases value with
  | none =>
    rw [map_none, none_or]
    split_ifs with hk
    · rw [hk]
    · rfl
  | some value =>
    rw [map_some, some_or]
    exact get_set

theorem ascending_setDecoded {key : String} {seq : Option ℕ} {d : Dict}
    (h : Ascending d) : Ascending (setDecoded key seq payloads d) := by
  unfold setDecoded
  split
  · exact h
  · exact ascending_set h

theorem writeCell_spec (hs : s.Sound) (h : CellReady record) (seq : ℕ) :
    ∃ cell t, writeCell sqlite sizes seq (.object record) s = .ok (cell, t) ∧
      t.Sound ∧ s.Grows t ∧ CellWritten t seq (.object record) cell := by
  obtain ⟨id, hid⟩ := h.id
  obtain ⟨type, ht⟩ := h.type
  obtain ⟨resources, hr⟩ := h.resources
  obtain ⟨name, hn, hc⟩ := nameColumn_spec sqlite id h.name
  obtain ⟨row₁, grows₁, sound₁, -⟩ := callPayload_spec sizes hs (json (.object resources))
  generalize hc₁ : s.callPayload sizes (json (.object resources)) = c₁ at row₁ grows₁ sound₁
  obtain ⟨row₂, grows₂, sound₂⟩ := callOptional_spec sizes sound₁ (get "parameters" record)
  generalize hc₂ : c₁.2.callOptional sizes (get "parameters" record) = c₂ at row₂ grows₂ sound₂
  obtain ⟨row₃, grows₃, sound₃⟩ := callOptional_spec sizes sound₂ (get "attributes" record)
  generalize hc₃ : c₂.2.callOptional sizes (get "attributes" record) = c₃ at row₃ grows₃ sound₃
  obtain ⟨row₄, grows₄, sound₄, -⟩ := callPayload_spec sizes sound₃ (json (constantsOrEmpty record))
  generalize hc₄ : c₃.2.callPayload sizes (json (constantsOrEmpty record)) = c₄
    at row₄ grows₄ sound₄
  obtain ⟨row₅, grows₅, sound₅, -⟩ := callPayload_spec sizes sound₄ (extras record cellColumns)
  generalize hc₅ : c₄.2.callPayload sizes (extras record cellColumns) = c₅ at row₅ grows₅ sound₅
  have hw : writeCell sqlite sizes seq (.object record) s =
      .ok ({ seq := seq, id := .text id, name := name, flags := nameFlag record (.text id),
             type := .text type, resourcesSeq := c₁.1, parametersSeq := c₂.1,
             attributesSeq := c₃.1, constantsSeq := c₄.1, extrasSeq := c₅.1 }, c₅.2) := by
    simp only [writeCell, asRecord, getItem, lookupOrRaise, hid, ht, hr,
      textColumn_text, notNull_text, hn, hc₁, hc₂, hc₃, hc₄, hc₅, bind, Except.bind, pure,
      Except.pure]
  refine ⟨_, _, hw, sound₅,
    grows₁.trans (grows₂.trans (grows₃.trans (grows₄.trans grows₅))), rfl,
    ⟨id, rfl, by simp [idOf, getOrNone, hid]⟩, fun payloads hp => ?_⟩
  -- every row the calls made is a row of the finished table
  have hp₄ := grows₅.payload.trans hp
  have hp₃ := grows₄.payload.trans hp₄
  have hp₂ := grows₃.payload.trans hp₃
  have hp₁ := grows₂.payload.trans hp₂
  simp only [compactInstance, row_of_prefix hp₁ row₁, row_of_prefix hp₄ row₄,
    row_of_prefix hp row₅, decode_json, decodeRecord_extras, bind, Except.bind, pure,
    Except.pure, overRecord, setName_eq, hc]
  refine congrArg (fun d => Except.ok (Json.object d)) (ext ?_ ?_ fun k => ?_)
  · exact ascending_setPresent (ascending_update ascending_display)
  · exact ascending_dropNull (ascending_setDefault h.ascending)
  have hf : Ascending (setDecoded "attributes" c₃.1 payloads (setDecoded "parameters" c₂.1
      payloads (update (display [("resources", Json.object resources),
        ("constant_connections", constantsOrEmpty record)]) (without cellColumns record)))) :=
    ascending_setDecoded (ascending_setDecoded (ascending_update ascending_display))
  simp only [get_setPresent (.inl h.name), get_update hf, get_setDecoded (row₃ payloads hp₃),
    get_setDecoded (row₂ payloads hp₂), get_update (ascending_without h.ascending), get_without]
  simp only [display_eq, foldl_cons, foldl_nil, get_set, get_nil, normalInstance, get_dropNull,
    get_setDefault, Sql.toJson, present, constantsOrEmpty, cellColumns]
  by_cases hk : k ∈ cellColumns
  · simp only [cellColumns, mem_cons, not_mem_nil, or_false] at hk
    rcases hk with rfl | rfl | rfl | rfl | rfl | rfl | rfl <;>
      simp [getOrNone, get_setDefault, hid, ht, hr]
  · simp only [cellColumns, mem_cons, not_mem_nil, or_false, not_or] at hk
    simp [hk]

/-! ## endpoints -/

def OwnersSound (sqlite : Affinity) (cells : List CellRow) (owners : List (Json × ℕ)) : Prop :=
  ∀ entry ∈ owners, ∃ key, textColumn sqlite entry.1 = .ok key ∧ findOwner cells key = some entry.2

variable {instances : List Json} {cells : List CellRow} {owners : List (Json × ℕ)} {id : String}
  {n : ℕ}

theorem owner_spec (hs : OwnersSound sqlite cells owners)
    (hn : findOwner cells (.text id) = some n) :
    ∃ owners', owner sqlite cells (.text id) owners = .ok (n, owners') ∧
      OwnersSound sqlite cells owners' := by
  unfold owner
  split
  · next m hm =>
    have hmm : (Json.text id, m) ∈ owners := Keyed.mem_of_lookup hm
    obtain ⟨key, hk, hf⟩ := hs _ hmm
    rw [textColumn_text] at hk
    rw [← Except.ok.inj hk, hn] at hf
    exact ⟨owners, by rw [some.inj hf], hs⟩
  · have hs' : OwnersSound sqlite cells (owners ++ [(.text id, n)]) := fun e he => by
      rcases List.mem_append.mp he with he | he
      · exact hs e he
      · rw [mem_singleton.mp he]
        exact ⟨.text id, textColumn_text id, hn⟩
    simp only [textColumn_text, hn, bind, Except.bind, pure, Except.pure]
    refine ⟨_, rfl, fun e he => ?_⟩
    split_ifs at he
    · exact hs' e (mem_of_mem_tail he)
    · exact hs' e he

theorem joinedId_of_findOwner (hcl : cells.Pairwise fun a b => a.seq < b.seq)
    (h : findOwner cells (.text id) = some n) : joinedId cells (some n) = .text id := by
  obtain ⟨cell, hc, rfl⟩ := map_eq_some_iff.mp h
  have hm := List.mem_of_find?_eq_some hc
  have hid : cell.id = .text id := by simpa using List.find?_some hc
  have hf : cells.find? (fun other => other.seq = cell.seq) = some cell := by
    have hnd : (cells.map CellRow.seq).Nodup := (pairwise_map.mpr hcl).imp fun hlt => hlt.ne
    exact Keyed.find_of_mem hnd hm
  unfold joinedId
  rw [bind_some, hf]
  exact hid

structure CellTable (instances : List Json) (cells : List CellRow) : Prop where
  order : cells.Pairwise fun a b => a.seq < b.seq
  find : ∀ id, Json.text id ∈ instances.map idOf → ∃ n, findOwner cells (.text id) = some n

structure EndpointReady (instances : List Json) (record : Dict) : Prop where
  ascending : Ascending record
  owner : getOrNone "instance" record = .null ∨
    ∃ id, getOrNone "instance" record = .text id ∧ Json.text id ∈ instances.map idOf
  port : ∃ s, get "port" record = some (.text s)
  bit : ∃ n, get "bit" record = some (.int n) ∧ isInt64 n = true

structure EndpointWritten (cells : List CellRow) (netSeq role : ℕ) (s : Interns) (ordinal : ℕ)
    (value : Json) (row : EndpointRow) : Prop where
  netSeq : row.netSeq = netSeq
  ordinal : row.ordinal = ordinal
  stored : ∀ payloads pins, s.payload.table <+: payloads → s.pin.table <+: pins →
    EndpointStored role value (row.view cells pins payloads)

theorem endpointRecord_eq {child : EndpointView} {port : String} {bit : ℤ}
    (ha : Ascending record) (hp : get "port" record = some (.text port))
    (hb : get "bit" record = some (.int bit))
    (hid : child.instanceId.toJson = getOrNone "instance" record)
    (hc : child.port = .text port) (hch : child.bit = .integer bit)
    (he : child.extrasJson = some (extras record endpointColumns)) :
    endpointRecord child = .ok (overRecord normalEndpoint (.object record)) := by
  simp only [endpointRecord, he, decodeRecord_extras, hid, hc, hch, bind,
    Except.bind, pure, Except.pure, overRecord, normalEndpoint]
  refine congrArg (fun d => Except.ok (Json.object d))
    (ext (ascending_update ascending_display) (ascending_setDefault ha) fun k => ?_)
  rw [get_update (ascending_without ha), get_without, display_eq, get_setDefault]
  by_cases hk : k ∈ endpointColumns
  · simp only [endpointColumns, mem_cons, not_mem_nil, or_false] at hk
    rcases hk with rfl | rfl | rfl <;> simp [endpointColumns, getOrNone, hp, hb, Sql.toJson]
  · rw [if_neg hk]
    simp only [endpointColumns, mem_cons, not_mem_nil, or_false, not_or] at hk
    simp [hk]

theorem ownerColumn_spec (hc : CellTable instances cells)
    (ho : OwnersSound sqlite cells s.owners) (h : EndpointReady instances record) :
    ∃ found owners, ownerColumn sqlite cells record s = .ok (found, { s with owners := owners }) ∧
      OwnersSound sqlite cells owners ∧
      (joinedId cells found).toJson = getOrNone "instance" record ∧
      ¬ (found.isSome = true ∧ joinedId cells found = .null) := by
  unfold ownerColumn
  rcases h.owner with hnl | ⟨id, hid, hm⟩
  · exact ⟨none, s.owners, if_pos hnl, ho, hnl.symm, by simp⟩
  · obtain ⟨n, hn⟩ := hc.find id hm
    obtain ⟨owners', how, ho'⟩ := owner_spec ho hn
    have hj := joinedId_of_findOwner hc.order hn
    refine ⟨some n, owners', ?_, ho', by rw [hj, hid]; rfl, by simp [hj]⟩
    rw [if_neg (by rw [hid]; simp), hid, how]
    rfl

theorem writeEndpoint_spec (hc : CellTable instances cells) (hs : s.Sound)
    (ho : OwnersSound sqlite cells s.owners) (h : EndpointReady instances record)
    (netSeq role ordinal : ℕ) :
    ∃ row t, writeEndpoint sqlite sizes cells netSeq role ordinal (.object record) s =
        .ok (row, t) ∧ (t.Sound ∧ OwnersSound sqlite cells t.owners) ∧ s.Grows t ∧
      EndpointWritten cells netSeq role t ordinal (.object record) row := by
  obtain ⟨port, hpr⟩ := h.port
  obtain ⟨bit, hb, hi⟩ := h.bit
  obtain ⟨found, owners, hf, ho', hj, how⟩ := ownerColumn_spec hc ho h
  have hs' : ({ s with owners := owners } : Interns).Sound := ⟨hs.payload, hs.pin⟩
  obtain ⟨row₁, grows₁, sound₁, owners₁⟩ := callPin_spec sizes hs' (.text port)
  generalize hc₁ : Interns.callPin sizes { s with owners := owners } (.text port) = c₁
    at row₁ grows₁ sound₁ owners₁
  obtain ⟨row₂, grows₂, sound₂, owners₂⟩ :=
    callPayload_spec sizes sound₁ (extras record endpointColumns)
  generalize hc₂ : c₁.2.callPayload sizes (extras record endpointColumns) = c₂
    at row₂ grows₂ sound₂ owners₂
  have hw : writeEndpoint sqlite sizes cells netSeq role ordinal (.object record) s =
      .ok ({ netSeq := netSeq, role := role, ordinal := ordinal, instanceSeq := found,
             portSeq := c₁.1, bit := .integer bit, extrasSeq := c₂.1 }, c₂.2) := by
    simp only [writeEndpoint, asRecord, getItem, lookupOrRaise, hf, hpr, hb,
      textColumn_text, integerColumn_int hi, notNull_text, notNull_integer, hc₁, hc₂, bind,
      Except.bind, pure, Except.pure]
  refine ⟨_, _, hw, ⟨sound₂, by rw [owners₂, owners₁]; exact ho'⟩,
    ⟨grows₁.payload.trans grows₂.payload, grows₁.pin.trans grows₂.pin⟩, rfl, rfl,
    fun payloads pins hp hpn => ⟨rfl, ?_, how⟩⟩
  refine endpointRecord_eq h.ascending hpr hb hj ?_ rfl ?_
  · show (row pins c₁.1).getD .null = _
    rw [Interner.row_of_prefix (grows₂.pin.trans hpn) row₁, getD_some]
  · exact row_of_prefix hp row₂

/-! ## nets -/

def EndpointsReady (instances : List Json) (key : String) (record : Dict) : Prop :=
  ∃ l, get key record = some (.array l) ∧
    ∀ value ∈ l, ∃ d, value = .object d ∧ EndpointReady instances d

structure NetReady (instances : List Json) (record : Dict) : Prop where
  ascending : Ascending record
  id : ∃ s, get "id" record = some (.text s)
  name : TextOrNull (getOrNone "name" record)
  yosysBit : Int64OrNull (getOrNone "yosys_bit" record)
  busIndex : Int64OrNull (getOrNone "bus_index" record)
  fanout : Int64OrNull (getOrNone "fanout" record)
  cutClass : ∃ s, get "cut_class" record = some (.text s)
  aliases : ∃ l, (get "aliases" record).getD (.array []) = .array l ∧
    ∀ name ∈ l, ∃ s, name = .text s
  drivers : EndpointsReady instances "drivers" record
  sinks : EndpointsReady instances "sinks" record

structure AliasWritten (netSeq ordinal : ℕ) (value : Json) (row : AliasRow) : Prop where
  netSeq : row.netSeq = netSeq
  ordinal : row.ordinal = ordinal
  name : row.name.toJson = value

variable {l : List Json}

variable (sqlite) in
/-- The rows of the aliases; the state is left alone. -/
theorem writeAliases_spec {σ : Type} (netSeq : ℕ) (x : σ) (h : ∀ name ∈ l, ∃ s, name = .text s) :
    ∃ rows, numberedM (writeAlias sqlite netSeq) 0 l x = .ok (rows, x) ∧
      Numbered (AliasWritten netSeq) 0 l rows :=
  numberedM_of_const (P := fun name => ∃ s, name = Json.text s) (fun ordinal name hn => by
    obtain ⟨s, rfl⟩ := hn
    refine ⟨{ netSeq := netSeq, ordinal := ordinal, name := .text s }, ?_, rfl, rfl, rfl⟩
    simp only [writeAlias, textColumn_text, notNull_text, bind, Except.bind, pure, Except.pure]) h

variable (sizes) in
theorem writeEndpoints_spec (hc : CellTable instances cells) (hs : s.Sound)
    (ho : OwnersSound sqlite cells s.owners) (netSeq role : ℕ)
    (h : ∀ value ∈ l, ∃ d, value = .object d ∧ EndpointReady instances d) :
    ∃ rows t, numberedM (writeEndpoint sqlite sizes cells netSeq role) 0 l s = .ok (rows, t) ∧
      (t.Sound ∧ OwnersSound sqlite cells t.owners) ∧ s.Grows t ∧
      Numbered (EndpointWritten cells netSeq role t) 0 l rows :=
  numberedM_spec (f := writeEndpoint sqlite sizes cells netSeq role)
    (G := fun s => s.Sound ∧ OwnersSound sqlite cells s.owners) (E := Interns.Grows)
    (P := fun value => ∃ d, value = Json.object d ∧ EndpointReady instances d)
    (R := EndpointWritten cells netSeq role) Interns.Grows.refl
    (fun _ _ _ => Interns.Grows.trans)
    (fun s t ordinal value row hg hrw => ⟨hrw.netSeq, hrw.ordinal, fun payloads pins hp hpn =>
      hrw.stored payloads pins (hg.payload.trans hp) (hg.pin.trans hpn)⟩)
    (fun ordinal value s hgd hr => by
      obtain ⟨d, rfl, hd⟩ := hr
      exact writeEndpoint_spec hc hgd.1 hgd.2 hd netSeq role ordinal) l 0 s ⟨hs, ho⟩ h

def NetRows.image (cells : List CellRow) (pins : List Sql) (payloads : List JsonText)
    (rows : NetRows) : NetImage where
  row := rows.row.view payloads
  names := rows.aliases
  drivers := rows.drivers.map (EndpointRow.view cells pins payloads)
  sinks := rows.sinks.map (EndpointRow.view cells pins payloads)

structure NetWritten (cells : List CellRow) (s : Interns) (seq : ℕ) (value : Json)
    (rows : NetRows) : Prop where
  number : rows.row.seq = seq
  id : ∃ s, rows.row.id = .text s ∧ idOf value = .text s
  imaged : ∀ payloads pins, s.payload.table <+: payloads → s.pin.table <+: pins →
    NetImaged seq value (rows.image cells pins payloads)

theorem endpoints_stored {netSeq role n : ℕ} {rows : List EndpointRow}
    {pins : List Sql}
    (h : Numbered (EndpointWritten cells netSeq role s) n l rows)
    (hp : s.payload.table <+: payloads) (hpn : s.pin.table <+: pins) :
    Forall₂ (EndpointStored role) l (rows.map (EndpointRow.view cells pins payloads)) := by
  induction h with
  | nil => exact .nil
  | cons hr _ ih => exact .cons (hr.stored payloads pins hp hpn) ih

theorem endpoints_owned {netSeq role n : ℕ} {l : List Json} {rows : List EndpointRow}
    {payloads : List JsonText} {pins : List Sql}
    (h : Numbered (EndpointWritten cells netSeq role s) n l rows) :
    (∀ child ∈ rows.map (EndpointRow.view cells pins payloads), child.netSeq = netSeq) ∧
      (rows.map (EndpointRow.view cells pins payloads)).Pairwise fun a b =>
        a.ordinal < b.ordinal := by
  refine ⟨?_, pairwise_map.mpr (h.pairwise fun _ _ _ hr => hr.ordinal)⟩
  induction h with
  | nil => exact fun _ h => absurd h not_mem_nil
  | cons hr _ ih => exact forall_mem_cons.mpr ⟨hr.netSeq, ih⟩

theorem aliases_owned {netSeq n : ℕ} {rows : List AliasRow}
    (h : Numbered (AliasWritten netSeq) n l rows) :
    (∀ row ∈ rows, row.netSeq = netSeq) ∧ (rows.Pairwise fun a b => a.ordinal < b.ordinal) ∧
      rows.map (fun row => row.name.toJson) = l := by
  refine ⟨?_, h.pairwise fun _ _ _ hr => hr.ordinal,
    (h.map_eq fun _ _ _ hr => hr.name).trans (map_id _)⟩
  induction h with
  | nil => exact fun _ h => absurd h not_mem_nil
  | cons hr _ ih => exact forall_mem_cons.mpr ⟨hr.netSeq, ih⟩

theorem writeNet_spec (hcl : CellTable instances cells) (hs : s.Sound)
    (ho : OwnersSound sqlite cells s.owners) (h : NetReady instances record) (seq : ℕ) :
    ∃ rows t, writeNet sqlite sizes cells seq (.object record) s = .ok (rows, t) ∧
      (t.Sound ∧ OwnersSound sqlite cells t.owners) ∧ s.Grows t ∧
      NetWritten cells t seq (.object record) rows := by
  obtain ⟨id, hid⟩ := h.id
  obtain ⟨cut, hct⟩ := h.cutClass
  obtain ⟨name, hna, hcm⟩ := nameColumn_spec sqlite id h.name
  obtain ⟨names, hns, hnm⟩ := h.aliases
  obtain ⟨driverValues, hdv, hdri⟩ := h.drivers
  obtain ⟨sinkValues, hss, hsk⟩ := h.sinks
  obtain ⟨row₁, grows₁, sound₁, owners₁⟩ := callPayload_spec sizes hs (extras record netColumns)
  generalize hc₁ : s.callPayload sizes (extras record netColumns) = c₁
    at row₁ grows₁ sound₁ owners₁
  obtain ⟨aliasRows, hali, har⟩ := writeAliases_spec sqlite seq c₁.2 hnm
  obtain ⟨driverRows, s₂, hwr₂, good₂, grows₂, hdr⟩ := writeEndpoints_spec
    sizes hcl sound₁ (by rw [owners₁]; exact ho) seq 0 hdri
  obtain ⟨sinkRows, s₃, hwr₃, good₃, grows₃, hsn⟩ := writeEndpoints_spec
    sizes hcl good₂.1 good₂.2 seq 1 hsk
  have hwr : writeNet sqlite sizes cells seq (.object record) s =
      .ok ({ row := { seq := seq, id := .text id, name := name, flags := nameFlag record (.text id),
                      yosysBit := columnOf (getOrNone "yosys_bit" record),
                      busIndex := columnOf (getOrNone "bus_index" record),
                      fanout := columnOf (getOrNone "fanout" record),
                      cutClass := .text cut, extrasSeq := c₁.1 },
             aliases := aliasRows, drivers := driverRows, sinks := sinkRows }, s₃) := by
    simp only [writeNet, asRecord, getItem, lookupOrRaise, hid, hct, hna, hns, hdv,
      hss, textColumn_text, notNull_text, integerColumn_of h.yosysBit,
      integerColumn_of h.busIndex, integerColumn_of h.fanout, iterate, hc₁, hali, hwr₂,
      hwr₃, bind, Except.bind, pure, Except.pure]
  refine ⟨_, s₃, hwr, good₃, grows₁.trans (grows₂.trans grows₃), rfl,
    ⟨id, rfl, by simp [idOf, getOrNone, hid]⟩, fun payloads pins hp hpn => ?_⟩
  have hp₂ := grows₃.payload.trans hp
  have hpn₂ := grows₃.pin.trans hpn
  obtain ⟨hal, has, han⟩ := aliases_owned har
  obtain ⟨hdrv, hdrr⟩ := @endpoints_owned _ _ _ _ _ _ _ payloads pins hdr
  obtain ⟨hsw, hsr⟩ := @endpoints_owned _ _ _ _ _ _ _ payloads pins hsn
  refine ⟨rfl, hal, has, fun child hch => ?_, hdrr, hsr,
    record, rfl, ?_⟩
  · exact (List.mem_append.mp hch).elim (hdrv child) (hsw child)
  · exact {
      ascending := h.ascending
      id := ⟨id, hid, rfl⟩
      cutClass := ⟨cut, hct, rfl⟩
      name := ⟨h.name, hcm⟩
      yosysBit := ⟨h.yosysBit, rfl⟩
      busIndex := ⟨h.busIndex, rfl⟩
      fanout := ⟨h.fanout, rfl⟩
      extrasJson := row_of_prefix (grows₂.payload.trans hp₂) row₁
      aliases := by rw [hns]; exact congrArg Json.array han.symm
      drivers := ⟨driverValues, hdv, endpoints_stored hdr hp₂ hpn₂⟩
      sinks := ⟨sinkValues, hss, endpoints_stored hsn hp hpn⟩ }

theorem cellTable_of_written {instances : List Json}
    (h : Numbered (CellWritten s) n instances cells) : CellTable instances cells := by
  refine ⟨h.pairwise fun _ _ _ hc => hc.seq, fun id hid => ?_⟩
  induction h with
  | nil => cases hid
  | @cons n value instances cell cells hc _ ih =>
    obtain ⟨own, ho, hv⟩ := hc.id
    unfold findOwner
    rw [List.find?_cons]
    split
    · exact ⟨cell.seq, rfl⟩
    · next hne =>
      rw [map_cons, mem_cons, hv] at hid
      rcases hid with hid | hid
      · rw [ho, Json.text.inj hid] at hne
        simp at hne
      · exact ih hid

end EmuFlow.Storage
