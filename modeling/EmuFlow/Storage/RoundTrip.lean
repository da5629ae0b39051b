import EmuFlow.Storage.HistoricalRoundTrip

/-!
# EmuIR storage: round trips of validated values

A validated value is ready for the stores once the fields that validation does not look at have the
types of their columns and the integers of columns fit in 64 bits. It is then read back in normal
form from either store, and repacking keeps what the historical store gives.
-/

namespace EmuFlow.Storage

open Check SortedDict OwnedRows List

/-! ## what validation leaves open -/

def isText : Json → Bool
  | .text _ => true
  | _ => false

def isTextOrNull : Json → Bool
  | .null => true
  | .text _ => true
  | _ => false

def isInt64OrNull : Json → Bool
  | .null => true
  | .int n => isInt64 n
  | _ => false

def fieldsOf : Json → Dict
  | .object record => record
  | _ => []

def itemsAt (key : String) (record : Dict) : List Json := (listOf (get key record)).getD []

def intFits (key : String) (record : Dict) : Bool :=
  match get key record with
  | some (.int n) => isInt64 n
  | _ => true

def aliasesStorable (record : Dict) : Bool :=
  match listOrEmpty "aliases" record with
  | .array names => names.all isText
  | _ => false

def netStorable (net : Json) : Bool :=
  isTextOrNull (getOrNone "name" (fieldsOf net)) &&
    ["yosys_bit", "bus_index", "fanout"].all (fun key =>
      isInt64OrNull (getOrNone key (fieldsOf net))) &&
    aliasesStorable (fieldsOf net) &&
    (itemsAt "drivers" (fieldsOf net) ++ itemsAt "sinks" (fieldsOf net)).all fun endpoint =>
      intFits "bit" (fieldsOf endpoint)

/-- The fields that the compact store keeps in columns of a type. -/
def storable (value : Dict) : Bool :=
  (itemsAt "instances" value).all (fun inst => isTextOrNull (getOrNone "name" (fieldsOf inst))) &&
    (itemsAt "nets" value).all netStorable

def flagStorable (key : String) (record : Dict) : Bool :=
  match get key record with
  | none => true
  | some (.bool _) => true
  | some _ => false

def constantsStorable (record : Dict) : Bool :=
  (itemsAt "constant_connections" record).all fun constant => intFits "bit" (fieldsOf constant)

def portStorable (port : Json) : Bool :=
  isTextOrNull (getOrNone "name" (fieldsOf port)) && intFits "width" (fieldsOf port) &&
    flagStorable "clock" (fieldsOf port) && flagStorable "reset" (fieldsOf port) &&
    constantsStorable (fieldsOf port)

def instanceStorable (inst : Json) : Bool :=
  ((dictOf (get "resources" (fieldsOf inst))).getD []).all (fun item => isInt64OrNull item.2) &&
    constantsStorable (fieldsOf inst)

/-- The further fields that the historical store keeps in columns of a type. -/
def historicalStorable (value : Dict) : Bool :=
  (itemsAt "ports" value).all portStorable && (itemsAt "instances" value).all instanceStorable

theorem textOrNull_of {j : Json} (h : isTextOrNull j = true) : TextOrNull j := by
  cases j with
  | null => exact .inl rfl
  | text s => exact .inr ⟨s, rfl⟩
  | _ => cases h

theorem int64OrNull_of {j : Json} (h : isInt64OrNull j = true) : Int64OrNull j := by
  cases j with
  | null => exact .inl rfl
  | int n => exact .inr ⟨n, rfl, h⟩
  | _ => cases h

theorem isInt64_of_intFits {key : String} {record : Dict} {n : ℤ} (h : intFits key record = true)
    (hn : get key record = some (.int n)) : isInt64 n = true := by
  rw [intFits, hn] at h
  exact h

theorem flagReady_of {key : String} {record : Dict} (h : flagStorable key record = true) :
    FlagReady key record := by
  unfold flagStorable at h
  unfold FlagReady
  split at h
  · next hn => exact .inl hn
  · next b hb => exact .inr ⟨b, hb⟩
  · cases h

/-! ## what validation gives -/

theorem forM_zipIdx {α : Type} {f : α × ℕ → Result Unit} {l : List α}
    (h : forM l.zipIdx f = .ok ()) : ∀ a ∈ l, ∃ i, f (a, i) = .ok () := by
  intro a ha
  obtain ⟨i, hi⟩ := List.getElem?_of_mem ha
  exact ⟨i, forM_eq_ok.mp h (a, i) (List.mk_mem_zipIdx_iff_getElem?.mpr hi)⟩

variable {context : String}

theorem validateUniqueIds_spec :
    ∀ {items : List Json} {index : ℕ} {seen ids : List String}, seen.Nodup →
      validateUniqueIds context index seen items = .ok ids →
      ids.Nodup ∧ ∃ new, ids = seen ++ new ∧ items.map idOf = new.map Json.text ∧
        ∀ item ∈ items, ∃ r s, item = .object r ∧ get "id" r = some (.text s)
  | [], _, seen, ids, hsn, h => by
    cases h
    exact ⟨hsn, [], (append_nil _).symm, rfl, fun _ h => absurd h not_mem_nil⟩
  | item :: items, index, seen, ids, hsn, h => by
    rw [validateUniqueIds] at h
    obtain ⟨id, hid, h⟩ := bind_eq_ok.mp h
    simp only [uniqueId, bind_eq_ok, orRaise_eq_ok, raiseIf_eq_ok, dictOf_eq_some, textOf_eq_some,
      pure, Except.pure, Except.ok.injEq, Option.some.injEq] at hid
    obtain ⟨r, rfl, s, hs, _, -, _, hn, rfl⟩ := hid
    have hsn' : (seen ++ [s]).Nodup :=
      nodup_append.mpr ⟨hsn, nodup_singleton s, fun a ha b hb heq =>
        hn (by rw [← mem_singleton.mp hb, ← heq]; exact ha)⟩
    obtain ⟨hnd, new, rfl, hm, hi⟩ := validateUniqueIds_spec hsn' h
    refine ⟨hnd, s :: new, by rw [append_assoc, singleton_append], ?_,
      forall_mem_cons.mpr ⟨⟨r, s, rfl, hs⟩, hi⟩⟩
    rw [map_cons, map_cons, hm, idOf, getOrNone, hs, Option.getD_some]

structure UniqueIds (items : List Json) (ids : List String) : Prop where
  map : items.map idOf = ids.map Json.text
  nodup : (items.map idOf).Nodup
  records : ∀ item ∈ items, ∃ r s, item = .object r ∧ get "id" r = some (.text s)

theorem uniqueIds_of {items : List Json} {ids : List String}
    (h : validateUniqueIds context 0 [] items = .ok ids) : UniqueIds items ids := by
  obtain ⟨hnd, new, rfl, hm, hi⟩ := validateUniqueIds_spec nodup_nil h
  refine ⟨hm, ?_, hi⟩
  rw [hm]
  exact hnd.map fun a b ha => Json.text.inj ha

def HasConstant (record : Dict) : Prop :=
  (∃ n, get "bit" record = some (.int n)) ∧ ∃ s, get "value" record = some (.text s)

theorem constantConnections_spec {record : Dict} {l : List Json}
    (h : constantConnections context record = .ok l) : constantsOrEmpty record = .array l := by
  unfold constantConnections at h
  unfold constantsOrEmpty
  split at h
  · next hn => rw [hn, Option.getD_none, Except.ok.inj h]
  · next v hv =>
    rw [orRaise_eq_ok, listOf_eq_some] at h
    rw [hv, h, Option.getD_some]

theorem validatePortConstants_spec {width : ℤ} : ∀ {l : List Json} {index : ℕ} {seen : List ℤ},
      validatePortConstants context width index seen l = .ok () →
      ∀ c ∈ l, ∃ d, c = .object d ∧ HasConstant d
  | [], _, _, _ => fun _ h => absurd h not_mem_nil
  | c :: l, index, seen, h => by
    simp only [validatePortConstants, bind_eq_ok, orRaise_eq_ok, raiseIf_eq_ok, dictOf_eq_some,
      textOf_eq_some, intOf_eq_some, Option.some.injEq] at h
    obtain ⟨d, rfl, n, hn, _, -, s, hs, _, -, h⟩ := h
    exact forall_mem_cons.mpr ⟨⟨d, rfl, ⟨n, hn⟩, s, hs⟩, validatePortConstants_spec h⟩

variable {index : ℕ}

theorem validatePort_spec {port : Json} (h : validatePort port index = .ok ()) :
    ∃ r, port = .object r ∧ (∃ s, get "direction" r = some (.text s)) ∧
      (∃ n, get "width" r = some (.int n)) ∧ ConstantsReady HasConstant r := by
  simp only [validatePort, bind_eq_ok, orRaise_eq_ok, raiseIf_eq_ok, textOf_eq_some,
    intOf_eq_some] at h
  obtain ⟨r, hr, s, hs, _, -, n, hn, _, -, l, hl, _, hc, -⟩ := h
  cases port with
  | object d =>
    obtain rfl := Except.ok.inj hr
    exact ⟨d, rfl, ⟨s, hs⟩, ⟨n, hn⟩, l, constantConnections_spec hl,
      validatePortConstants_spec hc⟩
  | _ => cases hr

theorem validateResources_spec {d : Dict}
    (h : validateResources context d = .ok ()) (hd : Ascending d) :
    ∀ item ∈ d, ∃ n, item.2 = .int n := by
  obtain ⟨hk, hfl⟩ := raiseIf_bind.mp h
  push Not at hk
  intro item hi
  have hf := forM_eq_ok.mp hfl item.1 (hk item hi)
  rw [get_of_mem hd hi] at hf
  simp only [bind_eq_ok, orRaise_eq_ok, intOf_eq_some, Option.some.injEq] at hf
  obtain ⟨n, hn, -⟩ := hf
  exact ⟨n, hn⟩

theorem validateInstanceConstant_spec {c : Json}
    (h : validateInstanceConstant context c index = .ok ()) :
    ∃ d, c = .object d ∧ HasConstant d ∧ ∃ s, get "port" d = some (.text s) := by
  simp only [validateInstanceConstant, bind_eq_ok, orRaise_eq_ok, raiseIf_eq_ok, dictOf_eq_some,
    textOf_eq_some, intOf_eq_some, Option.some.injEq] at h
  obtain ⟨d, rfl, p, hp, _, -, n, hn, _, -, s, hs, -⟩ := h
  exact ⟨d, rfl, ⟨⟨n, hn⟩, s, hs⟩, p, hp⟩

theorem validateInstance_spec {inst : Json} (h : validateInstance inst index = .ok ()) :
    ∃ r, inst = .object r ∧ (∃ s, get "type" r = some (.text s)) ∧
      (∃ d, get "resources" r = some (.object d) ∧
        (Ascending d → ∀ item ∈ d, ∃ n, item.2 = .int n)) ∧
      ConstantsReady (fun d => HasConstant d ∧ ∃ s, get "port" d = some (.text s)) r := by
  simp only [validateInstance, bind_eq_ok, orRaise_eq_ok, raiseIf_eq_ok, textOf_eq_some,
    dictOf_eq_some] at h
  obtain ⟨r, hr, s, hs, _, -, d, hd, _, hrs, l, hl, hcn⟩ := h
  cases inst with
  | object fields =>
    obtain rfl := Except.ok.inj hr
    refine ⟨fields, rfl, ⟨s, hs⟩, ⟨d, hd, validateResources_spec hrs⟩, l,
      constantConnections_spec hl, fun c hc => ?_⟩
    obtain ⟨i, hi⟩ := forM_zipIdx hcn c hc
    exact validateInstanceConstant_spec hi
  | _ => cases hr

variable {instanceIds portIds : List String}

theorem validateEndpoint_spec
    {endpoint : Json} (h : validateEndpoint instanceIds portIds context endpoint = .ok ()) :
    ∃ d, endpoint = .object d ∧ (getOrNone "instance" d = .null ∨
        ∃ id ∈ instanceIds, getOrNone "instance" d = .text id) ∧
      (∃ s, get "port" d = some (.text s)) ∧ ∃ n, get "bit" d = some (.int n) := by
  simp only [validateEndpoint, bind_eq_ok, orRaise_eq_ok, raiseIf_eq_ok, dictOf_eq_some,
    textOf_eq_some, intOf_eq_some, Option.some.injEq] at h
  obtain ⟨d, rfl, _, ho, s, hs, _, -, n, hn, -⟩ := h
  refine ⟨d, rfl, ?_, ⟨s, hs⟩, n, hn⟩
  by_cases hnl : getOrNone "instance" d = .null
  · exact .inl hnl
  · rw [requireOwner, if_neg hnl, raiseIf_eq_ok] at ho
    push Not at ho
    exact .inr ho

theorem validateNet_spec {net : Json} (h : validateNet instanceIds portIds net index = .ok ()) :
    ∃ r, net = .object r ∧ (∃ s, get "cut_class" r = some (.text s)) ∧
      ∀ key ∈ ["drivers", "sinks"], ∃ l, get key r = some (.array l) ∧ ∀ p ∈ l,
        ∃ d, p = .object d ∧ (getOrNone "instance" d = .null ∨
            ∃ id ∈ instanceIds, getOrNone "instance" d = .text id) ∧
          (∃ s, get "port" d = some (.text s)) ∧ ∃ n, get "bit" d = some (.int n) := by
  simp only [validateNet, bind_eq_ok, orRaise_eq_ok, raiseIf_eq_ok, textOf_eq_some] at h
  obtain ⟨r, hr, s, hs, _, -, hc⟩ := h
  cases net with
  | object fields =>
    obtain rfl := Except.ok.inj hr
    refine ⟨fields, rfl, ⟨s, hs⟩, fun key hk => ?_⟩
    have hk := forM_eq_ok.mp hc key hk
    simp only [bind_eq_ok, orRaise_eq_ok, listOf_eq_some] at hk
    obtain ⟨l, hl, he⟩ := hk
    refine ⟨l, hl, fun p hen => ?_⟩
    obtain ⟨i, hi⟩ := forM_zipIdx he p hen
    exact validateEndpoint_spec hi
  | _ => cases hr

/-! ## records that are ready -/

variable {record : Dict} {key : String} {l instances : List Json}

theorem canonical_object (h : (Json.object record).canonical = true) :
    Ascending record ∧ canonicalFields record = true := by
  rwa [Json.canonical, Bool.and_eq_true, decide_eq_true_eq] at h

theorem canonical_items (h : canonicalFields record = true)
    (hl : get key record = some (.array l)) : ∀ item ∈ l, item.canonical = true := by
  have hc := canonical_of_get h hl
  rwa [Json.canonical, canonicalItems_iff] at hc

theorem itemsAt_of_get (h : get key record = some (.array l)) : itemsAt key record = l := by
  rw [itemsAt, h]
  rfl

theorem get_of_constantsOrEmpty (h : constantsOrEmpty record = .array l) (hne : l ≠ []) :
    get "constant_connections" record = some (.array l) := by
  unfold constantsOrEmpty at h
  cases hg : get "constant_connections" record with
  | none =>
    rw [hg, Option.getD_none] at h
    exact absurd (Json.array.inj h).symm hne
  | some v => rw [hg, Option.getD_some] at h; rw [h]

theorem constantsReady_of {P Q : Dict → Prop} (h : ConstantsReady P record)
    (hc : canonicalFields record = true) (hs : constantsStorable record = true)
    (hp : ∀ d, P d → Ascending d → intFits "bit" d = true → Q d) : ConstantsReady Q record := by
  obtain ⟨l, hl, hP⟩ := h
  refine ⟨l, hl, fun c hm => ?_⟩
  have hg := get_of_constantsOrEmpty hl (ne_nil_of_mem hm)
  obtain ⟨d, rfl, hd⟩ := hP c hm
  rw [constantsStorable, itemsAt_of_get hg, all_eq_true] at hs
  exact ⟨d, rfl, hp d hd (canonical_object (canonical_items hc hg _ hm)).1 (hs _ hm)⟩

theorem constantReady_of (h : HasConstant record) (ha : Ascending record)
    (hs : intFits "bit" record = true) : ConstantReady record := by
  obtain ⟨⟨n, hn⟩, hv⟩ := h
  exact ⟨ha, ⟨n, hn, isInt64_of_intFits hs hn⟩, hv⟩

theorem netReady_of {ids : List String} {portIds : List String}
    (hv : validateNet ids portIds (.object record) index = .ok ())
    (hc : (Json.object record).canonical = true) (hs : netStorable (.object record) = true)
    (hid : ∃ s, get "id" record = some (.text s))
    (his : instances.map idOf = ids.map Json.text) : NetReady instances record := by
  obtain ⟨r, hr, hct, hcl⟩ := validateNet_spec hv
  obtain rfl := Json.object.inj hr
  obtain ⟨has, hfl⟩ := canonical_object hc
  simp only [netStorable, fieldsOf, Bool.and_eq_true, all_cons, all_nil, all_append, and_true] at hs
  obtain ⟨⟨⟨hna, hys, hbs, hfn⟩, hal⟩, hdr, hsn⟩ := hs
  have hrd : ∀ key ∈ ["drivers", "sinks"],
      (itemsAt key record).all (fun p => intFits "bit" (fieldsOf p)) = true →
      EndpointsReady instances key record := fun key hky hft => by
    obtain ⟨l, hl, hed⟩ := hcl key hky
    rw [itemsAt_of_get hl, all_eq_true] at hft
    refine ⟨l, hl, fun p hen => ?_⟩
    obtain ⟨d, rfl, how, hpr, n, hn⟩ := hed p hen
    refine ⟨d, rfl, (canonical_object (canonical_items hfl hl _ hen)).1, ?_, hpr, n, hn,
      isInt64_of_intFits (hft _ hen) hn⟩
    refine how.imp_right fun ⟨id, hmm, hid⟩ => ⟨id, hid, ?_⟩
    rw [his]
    exact mem_map_of_mem hmm
  have hnm : ∃ l, (get "aliases" record).getD (.array []) = .array l ∧
      ∀ name ∈ l, ∃ s, name = .text s := by
    unfold aliasesStorable listOrEmpty at hal
    split at hal
    · next names hnm =>
      refine ⟨names, hnm, fun name hna => ?_⟩
      have htx := all_eq_true.mp hal name hna
      cases name with
      | text s => exact ⟨s, rfl⟩
      | _ => cases htx
    · cases hal
  exact {
    ascending := has
    id := hid
    name := textOrNull_of hna
    yosysBit := int64OrNull_of hys
    busIndex := int64OrNull_of hbs
    fanout := int64OrNull_of hfn
    cutClass := hct
    aliases := hnm
    drivers := hrd "drivers" (by simp) hdr
    sinks := hrd "sinks" (by simp) hsn }

theorem portReady_of (hv : validatePort (.object record) index = .ok ())
    (hc : (Json.object record).canonical = true) (hs : portStorable (.object record) = true)
    (hid : ∃ s, get "id" record = some (.text s)) : PortReady record := by
  obtain ⟨r, hr, hd, ⟨n, hn⟩, hcn⟩ := validatePort_spec hv
  obtain rfl := Json.object.inj hr
  obtain ⟨ha, hf⟩ := canonical_object hc
  simp only [portStorable, fieldsOf, Bool.and_eq_true] at hs
  obtain ⟨⟨⟨⟨hnm, hw⟩, hcl⟩, hrs⟩, hst⟩ := hs
  exact {
    ascending := ha
    id := hid
    name := textOrNull_of hnm
    direction := hd
    width := ⟨n, hn, isInt64_of_intFits hw hn⟩
    clock := flagReady_of hcl
    reset := flagReady_of hrs
    constants := constantsReady_of hcn hf hst fun _ => constantReady_of }

theorem instanceReady_of (hv : validateInstance (.object record) index = .ok ())
    (hc : (Json.object record).canonical = true) (hs : instanceStorable (.object record) = true)
    (hcl : CellReady record) : InstanceReady record := by
  obtain ⟨r, hr, ht, ⟨d, hd, ham⟩, hcn⟩ := validateInstance_spec hv
  obtain rfl := Json.object.inj hr
  obtain ⟨ha, hfl⟩ := canonical_object hc
  simp only [instanceStorable, fieldsOf, hd, dictOf, Option.getD_some, Bool.and_eq_true,
    all_eq_true] at hs
  have hds := (canonical_object (canonical_of_get hfl hd)).1
  exact {
    ascending := ha
    id := hcl.id
    name := hcl.name
    type := ht
    resources := ⟨d, hd, hds, fun item hi => by
      obtain ⟨n, hn⟩ := ham hds item hi
      have hf := hs.1 item hi
      rw [hn] at hf
      exact ⟨n, hn, hf⟩⟩
    constants := constantsReady_of hcn hfl hs.2 fun d hd ha hf =>
      ⟨constantReady_of hd.1 ha hf, hd.2⟩ }

theorem ready_of_validate {value : Dict} (hv : validate value = .ok ())
    (hc : (Json.object value).canonical = true) (hs : storable value = true) :
    ∃ ports instances nets clocks, Ready value ports instances nets clocks ∧
      (historicalStorable value = true → HistoricalReady ports instances) := by
  simp only [validate, bind_eq_ok, raiseIf_eq_ok, not_not, arrayAt, orRaise_eq_ok,
    listOf_eq_some] at hv
  obtain ⟨_, hsc, _, -, ports, hpr, instances, hin, nets, hnt, clocks, hcc,
    portIds, hpd, instanceIds, hint, netIds, hnd, _, -, _, hpc, _,
    hit, _, hnc, -⟩ := hv
  have hpr' := uniqueIds_of hpd
  have hin' := uniqueIds_of hint
  have hnt' := uniqueIds_of hnd
  obtain ⟨has, hfl⟩ := canonical_object hc
  have hpo := canonical_items hfl hpr
  have hins := canonical_items hfl hin
  have hnm := canonical_items hfl hnt
  simp only [storable, itemsAt_of_get hin, itemsAt_of_get hnt, Bool.and_eq_true,
    all_eq_true] at hs
  have hcl : ∀ inst ∈ instances, ∃ r, inst = .object r ∧ CellReady r := fun inst his => by
    obtain ⟨r, s, rfl, hid⟩ := hin'.records inst his
    obtain ⟨i, hi⟩ := forM_zipIdx hit _ his
    obtain ⟨r', hr', hty, ⟨d, hd, -⟩, -⟩ := validateInstance_spec hi
    obtain rfl := Json.object.inj hr'
    exact ⟨r, rfl, (canonical_object (hins _ his)).1, ⟨s, hid⟩,
      textOrNull_of (hs.1 _ his), hty, d, hd⟩
  refine ⟨ports, instances, nets, clocks, ?_, fun hh => ?_⟩
  · exact {
      hasSchema := ⟨emuirSchema, hsc⟩
      hasPorts := hpr
      portRecords := fun port hpt => by
        obtain ⟨r, s, rfl, -⟩ := hpr'.records port hpt
        exact ⟨r, rfl, (canonical_object (hpo _ hpt)).1⟩
      hasInstances := hin
      cells := hcl
      cellIds := hin'.nodup
      hasNets := hnt
      netRecords := fun net hne => by
        obtain ⟨r, s, rfl, hid⟩ := hnt'.records net hne
        obtain ⟨i, hi⟩ := forM_zipIdx hnc _ hne
        exact ⟨r, rfl, netReady_of hi (hnm _ hne) (hs.2 _ hne) ⟨s, hid⟩ hin'.map⟩
      netIds := hnt'.nodup
      hasClocks := hcc }
  · simp only [historicalStorable, itemsAt_of_get hpr, itemsAt_of_get hin,
      Bool.and_eq_true, all_eq_true] at hh
    refine ⟨fun port hpt => ?_, hpr'.nodup, fun inst his => ?_⟩
    · obtain ⟨r, s, rfl, hid⟩ := hpr'.records port hpt
      obtain ⟨i, hi⟩ := forM_zipIdx hpc _ hpt
      exact ⟨r, rfl, portReady_of hi (hpo _ hpt) (hh.1 _ hpt) ⟨s, hid⟩⟩
    · obtain ⟨r, rfl, hce⟩ := hcl inst his
      obtain ⟨i, hi⟩ := forM_zipIdx hit _ his
      exact ⟨r, rfl, instanceReady_of hi (hins _ his) (hh.2 _ his) hce⟩

/-- Both stores give a validated value back in normal form, and repacking the historical store
gives a compact one that reads back to the same. -/
theorem stores_roundTrip (sqlite : Affinity) (sizes : Sizes) {value : Dict}
    (hv : validate value = .ok ()) (hc : (Json.object value).canonical = true)
    (hs : storable value = true) :
    (∃ store, writeCompactEmuir sqlite sizes value = .ok store ∧
      readCompactEmuir store = .ok (normalForm value)) ∧
    (historicalStorable value = true → ∃ store packed, writeEmuirSqliteV1 sqlite value = .ok store ∧
      readEmuirSqlite store = .ok (historicalForm value) ∧
      repackEmuir sqlite sizes store = .ok packed ∧
      readCompactEmuir packed = readEmuirSqlite store) := by
  obtain ⟨ports, instances, nets, clocks, h, hh⟩ := ready_of_validate hv hc hs
  refine ⟨compact_of_ready sqlite sizes h, fun hs' => ?_⟩
  obtain ⟨store, packed, hwrite, hread, hrepack, hpacked⟩ := repack_of_ready sqlite sizes h (hh hs')
  exact ⟨store, packed, hwrite, hread, hrepack, hpacked.trans hread.symm⟩

/-! ## designs -/

/-- A LUT that drives a port with a null name, without warnings; the sink names no instance. -/
def bareDesign : Dict :=
  [("clocks", .array []),
    ("design", .object [("name", .text "d"), ("source_format", .text "yosys"), ("top", .text "d")]),
    ("instances", .array [.object [("id", .text "i"), ("name", .text "i"),
      ("resources", .object [("lut", .int 1)]), ("type", .text "LUT1")]]),
    ("nets", .array [.object [("cut_class", .text "combinational"),
      ("drivers", .array [.object [("bit", .int 0), ("instance", .text "i"), ("port", .text "O")]]),
      ("id", .text "n"), ("sinks", .array [.object [("bit", .int 0), ("port", .text "p")]])]]),
    ("notes", .text "kept nowhere"),
    ("ports", .array [.object [("direction", .text "output"), ("id", .text "p"), ("name", .null),
      ("width", .int 1)]]),
    ("schema", .text emuirSchema)]

def listNamed : Dict :=
  set "instances" (.array [.object [("id", .text "i"), ("name", .array []),
    ("resources", .object [("lut", .int 1)]), ("type", .text "LUT1")]]) bareDesign

def wideBit : Dict :=
  set "nets" (.array [.object [("cut_class", .text "combinational"), ("drivers", .array [.object
      [("bit", .int 9223372036854775808), ("instance", .text "i"), ("port", .text "O")]]),
    ("id", .text "n"), ("sinks", .array [])]]) bareDesign

def plainSizes : Sizes where
  payload _ := 100
  pin _ := 100

theorem bareDesign_roundTrip :
    (∃ store, writeCompactEmuir .plain plainSizes bareDesign = .ok store ∧
      readCompactEmuir store = .ok (normalForm bareDesign)) ∧
    ∃ store packed, writeEmuirSqliteV1 .plain bareDesign = .ok store ∧
      readEmuirSqlite store = .ok (historicalForm bareDesign) ∧
      repackEmuir .plain plainSizes store = .ok packed ∧
      readCompactEmuir packed = readEmuirSqlite store :=
  have h := @stores_roundTrip .plain plainSizes bareDesign (by decide +kernel)
    (by decide +kernel) (by decide +kernel)
  ⟨h.1, h.2 (by decide +kernel)⟩

/-- The normalisation as it is documented: missing constants and aliases are empty lists, and null
fields are dropped. -/
def documentedForm (value : Dict) : Dict :=
  mapField "nets" (fun net => dropNull "fanout" (dropNull "bus_index" (dropNull "yosys_bit"
      (dropNull "name" (setDefault "aliases" (.array []) net)))))
    (mapField "instances" normalInstance
      (mapField "ports" (fun port => dropNull "name" (normalPort port)) value))

def throughCompact (value : Dict) : Option Dict :=
  (writeCompactEmuir .plain plainSizes value >>= readCompactEmuir).toOption

def throughHistorical (value : Dict) : Option Dict :=
  (writeEmuirSqliteV1 .plain value >>= readEmuirSqlite).toOption

/-- Validated designs that do not come back in the documented form, that come back differently
from the two stores, and that the stores do not take. -/
theorem bareDesign_notDocumented :
    validate bareDesign = .ok () ∧ throughCompact bareDesign ≠ some (documentedForm bareDesign) ∧
      throughCompact bareDesign ≠ throughHistorical bareDesign ∧
      validate listNamed = .ok () ∧ throughCompact listNamed = none ∧
      validate wideBit = .ok () ∧ throughCompact wideBit = none := by
  decide +kernel

end EmuFlow.Storage
