import EmuFlow.Storage.Selected
import EmuFlow.Storage.NormalForm
import EmuFlow.Lib.Keyed

/-!
# EmuIR storage: the readers of selected nets against the full reader

What the full reader gives for a net is the fold of its endpoint rows over the record of its own
row. The selective readers run over the rows of many nets at once; under one identifier they do the
same fold, over the same rows in the same order.
-/

namespace EmuFlow.Storage

open Check SortedDict OwnedRows List SortedSet

section keyed

variable {β ρ : Type} {id : ρ → String} {step : Option β → ρ → Result β}

def foldRecord (step : Option β → ρ → Result β) (record : Option β) (rows : List ρ) :
    Result (Option β) :=
  rows.foldlM (fun record row => some <$> step record row) record

theorem foldRecord_cons {record : Option β} {row : ρ} {rows : List ρ} :
    foldRecord step record (row :: rows) =
      (step record row >>= fun value => foldRecord step (some value) rows) := by
  rw [foldRecord, foldlM_cons]
  cases step record row <;> rfl

theorem foldlM_setStep : ∀ (rows : List ρ) (result : List (String × β)),
    (∀ k, ∃ record, foldRecord step (get k result) (rows.filter fun row => id row = k) =
      .ok record) →
    ∃ result', rows.foldlM (setStep id step) result = .ok result' ∧
      ∀ k, foldRecord step (get k result) (rows.filter fun row => id row = k) = .ok (get k result')
  | [], result, _ => ⟨result, rfl, fun _ => rfl⟩
  | row :: rows, result, h => by
    obtain ⟨record, hr⟩ := h (id row)
    rw [filter_cons_of_pos (by simp), foldRecord_cons] at hr
    obtain ⟨value, hv, hrs⟩ := bind_eq_ok.mp hr
    have hn : ∀ k, foldRecord step (get k result) ((row :: rows).filter fun r => id r = k) =
        foldRecord step (get k (set (id row) value result)) (rows.filter fun r => id r = k) := by
      intro k
      rw [get_set]
      by_cases hk : k = id row
      · rw [if_pos hk, filter_cons_of_pos (by simpa using hk.symm), foldRecord_cons, hk, hv]
        rfl
      · rw [if_neg hk, filter_cons_of_neg (by simpa using Ne.symm hk)]
    obtain ⟨result', hf, hg⟩ := foldlM_setStep rows (set (id row) value result)
      fun k => (hn k) ▸ h k
    refine ⟨result', ?_, fun k => (hn k).trans (hg k)⟩
    rw [foldlM_cons, setStep, hv]
    exact hf

end keyed

theorem flatten_slices {α : Type} (l : List α) (size : ℕ) : ∀ n : ℕ,
    ((List.range n).map fun i => (l.drop (size * i)).take size).flatten = l.take (size * n)
  | 0 => by simp
  | n + 1 => by
    rw [range_succ, map_append, flatten_append, flatten_slices l size n, Nat.mul_succ, take_add]
    simp

theorem flatten_batchesOf {α : Type} {size : ℕ} (h : 0 < size) (l : List α) :
    (batchesOf size l).flatten = l := by
  rw [batchesOf, flatten_slices]
  refine take_of_length_le ?_
  have hd := Nat.div_add_mod (l.length + size - 1) size
  have hm := Nat.mod_lt (l.length + size - 1) h
  omega

theorem inBatch_iff {batch : List String} {id : Sql} :
    inBatch batch id = true ↔ ∃ s ∈ batch, id = .text s := by
  simp [inBatch]

/-! ## the full reader -/

def EndpointRow.key (row : EndpointRow) : ℕ ×ₗ ℕ ×ₗ ℕ :=
  SortedSet.lex row.netSeq (SortedSet.lex row.role row.ordinal)

/-- What the schema of the store asks of its rows, with the references resolved, and the payloads of
nets and endpoints without the fields that have their own columns. -/
structure CompactStore.Sound (store : CompactStore) : Prop where
  netSeqs : (store.nets.map NetRow.seq).Nodup
  netIds : (store.nets.map NetRow.id).Nodup
  netText : ∀ net ∈ store.nets, ∃ s, net.id = .text s
  cellText : ∀ cell ∈ store.cells, ∃ s, cell.id = .text s
  endpointKeys : (store.endpoints.map EndpointRow.key).Nodup
  pins : ∀ row ∈ store.endpoints, (Interner.row store.pinNames row.portSeq).isSome = true
  netExtras : ∀ net ∈ store.nets, ∃ more, Interner.row store.payloads net.extrasSeq =
    some (json (.object more)) ∧ Ascending more ∧ ∀ k ∈ netColumns, get k more = none
  endpointExtras : ∀ row ∈ store.endpoints, ∃ more, Interner.row store.payloads row.extrasSeq =
    some (json (.object more)) ∧ Ascending more ∧ ∀ k ∈ endpointColumns, get k more = none

/-- The rows of the view `endpoints`, in the order of the full reader. -/
def CompactStore.endpointViews (store : CompactStore) : List EndpointView :=
  orderEndpoints (store.endpoints.map (EndpointRow.view store.cells store.pinNames store.payloads))

/-- The endpoints of a net as the full reader meets them. -/
def CompactStore.childrenOf (store : CompactStore) (seq : ℕ) : List EndpointView :=
  store.endpointViews.filter fun row => row.netSeq = seq

def CompactStore.namesOf (store : CompactStore) (seq : ℕ) : List AliasRow :=
  (orderAliases store.aliases).filter fun row => row.netSeq = seq

def CompactStore.allNets (store : CompactStore) : Result (List Json) :=
  compactNets (store.nets.map (NetRow.view store.payloads))
    (store.endpoints.map (EndpointRow.view store.cells store.pinNames store.payloads))
    store.aliases

theorem of_compactNetsLoop : ∀ {rows : List NetView} {endpoints : List EndpointView}
    {aliases : List AliasRow} {records : List Json},
    (rows.Pairwise fun a b => a.seq < b.seq) →
    (endpoints.Pairwise fun a b => a.netSeq ≤ b.netSeq) →
    (aliases.Pairwise fun a b => a.netSeq ≤ b.netSeq) →
    compactNetsLoop rows endpoints aliases = .ok records →
    (∀ child ∈ endpoints, ∃ row ∈ rows, row.seq = child.netSeq) ∧
      (∀ row ∈ rows, ∃ r ∈ records, compactNet row
        (aliases.filter fun name => name.netSeq = row.seq)
        (endpoints.filter fun child => child.netSeq = row.seq) = .ok r) ∧
      ∀ r ∈ records, ∃ row ∈ rows, compactNet row
        (aliases.filter fun name => name.netSeq = row.seq)
        (endpoints.filter fun child => child.netSeq = row.seq) = .ok r
  | [], endpoints, aliases, records, _, _, _, h => by
    obtain ⟨_, hfn, h⟩ := bind_eq_ok.mp h
    obtain ⟨_, -, h⟩ := bind_eq_ok.mp h
    cases h
    cases endpoints with
    | nil => exact ⟨fun _ h => absurd h not_mem_nil, fun _ h => absurd h not_mem_nil,
        fun _ h => absurd h not_mem_nil⟩
    | cons child endpoints => cases hfn
  | row :: rows, endpoints, aliases, records, hrw, hen, hal, h => by
    obtain ⟨⟨names, aliases'⟩, hnm, h⟩ := bind_eq_ok.mp h
    obtain ⟨⟨children, endpoints'⟩, hch, h⟩ := bind_eq_ok.mp h
    obtain ⟨r, hrc, h⟩ := bind_eq_ok.mp h
    obtain ⟨rest, hrs, h⟩ := bind_eq_ok.mp h
    cases h
    obtain ⟨rfl, rfl, -⟩ := of_take_eq_ok hal hnm
    obtain ⟨rfl, rfl, -⟩ := of_take_eq_ok hen hch
    obtain ⟨hfr, hpr⟩ := pairwise_cons.mp hrw
    obtain ⟨how, hrd, hbc⟩ := of_compactNetsLoop hpr
      (hen.sublist filter_sublist) (hal.sublist filter_sublist) hrs
    -- what the first net has taken belongs to no later one
    have hkp : ∀ row' ∈ rows,
        ((aliases.filter fun name => name.netSeq ≠ row.seq).filter fun name =>
            name.netSeq = row'.seq) = (aliases.filter fun name => name.netSeq = row'.seq) ∧
          ((endpoints.filter fun child => child.netSeq ≠ row.seq).filter fun child =>
            child.netSeq = row'.seq) = endpoints.filter fun child => child.netSeq = row'.seq := by
      intro row' hro'
      have hne := (hfr row' hro').ne'
      constructor <;>
        · rw [filter_filter]
          refine filter_congr fun x _ => ?_
          simp only [ne_eq, decide_not, Bool.and_eq_left_iff_imp, decide_eq_true_eq,
            Bool.not_eq_true', decide_eq_false_iff_not]
          exact fun hx => hx ▸ hne
    refine ⟨fun child hcl => ?_, fun row' hro' => ?_, fun record' hrc' => ?_⟩
    · by_cases hon : child.netSeq = row.seq
      · exact ⟨row, mem_cons_self, hon.symm⟩
      · obtain ⟨row', hro', hsq⟩ := how child (mem_filter.mpr ⟨hcl, by simpa using hon⟩)
        exact ⟨row', mem_cons_of_mem _ hro', hsq⟩
    · rcases mem_cons.mp hro' with rfl | hro'
      · exact ⟨r, mem_cons_self, hrc⟩
      · obtain ⟨record', hmm, heq⟩ := hrd row' hro'
        rw [(hkp row' hro').1, (hkp row' hro').2] at heq
        exact ⟨record', mem_cons_of_mem _ hmm, heq⟩
    · rcases mem_cons.mp hrc' with rfl | hrc'
      · exact ⟨row, mem_cons_self, hrc⟩
      · obtain ⟨row', hro', heq⟩ := hbc record' hrc'
        rw [(hkp row' hro').1, (hkp row' hro').2] at heq
        exact ⟨row', mem_cons_of_mem _ hro', heq⟩

theorem pairwise_orderEndpoints (rows : List EndpointView) :
    (orderEndpoints rows).Pairwise fun a b => a.netSeq ≤ b.netSeq := by
  refine (pairwise_sortedBy _ rows).imp fun {a b} h => ?_
  exact Prod.Lex.monotone_fst _ _ h

theorem pairwise_orderAliases (rows : List AliasRow) :
    (orderAliases rows).Pairwise fun a b => a.netSeq ≤ b.netSeq := by
  refine (pairwise_sortedBy _ rows).imp fun {a b} h => ?_
  exact Prod.Lex.monotone_fst _ _ h

variable {store : CompactStore} {records : List Json}

theorem of_allNets (hs : store.Sound) (h : store.allNets = .ok records) :
    (∀ row ∈ store.endpoints, ∃ net ∈ store.nets, net.seq = row.netSeq) ∧
      (∀ net ∈ store.nets, ∃ record ∈ records, compactNet (net.view store.payloads)
        (store.namesOf net.seq) (store.childrenOf net.seq) = .ok record) ∧
      ∀ record ∈ records, ∃ net ∈ store.nets, compactNet (net.view store.payloads)
        (store.namesOf net.seq) (store.childrenOf net.seq) = .ok record := by
  have hnd : ((orderBySeq NetView.seq (store.nets.map (NetRow.view store.payloads))).map
      NetView.seq).Nodup := by
    refine (((sortedBy_perm _ _).map NetView.seq).nodup_iff).mpr ?_
    rw [map_map]
    exact hs.netSeqs
  have hrw := (pairwise_sortedBy NetView.seq
    (store.nets.map (NetRow.view store.payloads))).and (pairwise_map.mp hnd)
  obtain ⟨ho, hrd, hb⟩ := of_compactNetsLoop
    (hrw.imp fun ha => lt_of_le_of_ne ha.1 ha.2)
    (pairwise_orderEndpoints _) (pairwise_orderAliases _) h
  refine ⟨fun row hro => ?_, fun net hn => ?_, fun record hr => ?_⟩
  · obtain ⟨view, hv, hsq⟩ := ho _ (mem_sortedBy.mpr (mem_map_of_mem hro))
    obtain ⟨net, hn, rfl⟩ := mem_map.mp (mem_sortedBy.mp hv)
    exact ⟨net, hn, hsq⟩
  · exact hrd _ (mem_sortedBy.mpr (mem_map_of_mem hn))
  · obtain ⟨view, hv, heq⟩ := hb record hr
    obtain ⟨net, hn, rfl⟩ := mem_map.mp (mem_sortedBy.mp hv)
    exact ⟨net, hn, heq⟩

/-! ## the record of one net -/

section record

variable {d d' e : Dict} {child : EndpointView} {children : List EndpointView} {k key : String}

theorem appendEndpoint_eq_ok : appendEndpoint d child = .ok d' ↔ (child.role = 0 ∨ child.role = 1) ∧
      ((child.instanceSeq.bind id).isSome = true → child.instanceId ≠ .null) ∧
      ∃ value, endpointRecord child = .ok value ∧ d' = set (collection child.role)
          (.array ((listOf (get (collection child.role) d)).getD [] ++ [value])) d := by
  simp only [appendEndpoint, bind_eq_ok, raiseIf_eq_ok, exists_const, pure, Except.pure,
    Except.ok.injEq, eq_comm (b := d')]
  rw [not_and_or, not_not, not_not, not_and]

theorem collection_eq (h : child.role = 0 ∨ child.role = 1) :
    collection child.role = "drivers" ∨ collection child.role = "sinks" := by
  rcases h with h | h <;> simp [collection, h]

theorem endpointStep_transfer (id : String) (h : appendEndpoint d child = .ok d')
    (hdr : get "drivers" e = get "drivers" d) (hs : get "sinks" e = get "sinks" d)
    (hd : Ascending d) (he : Ascending e) :
    ∃ e', endpointStep (some e) { id := id, view := child } = .ok e' ∧
      get "drivers" e' = get "drivers" d' ∧ get "sinks" e' = get "sinks" d' ∧
      Ascending d' ∧ Ascending e' ∧ ∀ k, k ≠ "drivers" → k ≠ "sinks" →
        get k e' = get k e ∧ get k d' = get k d := by
  obtain ⟨hr, -, value, hv, rfl⟩ := appendEndpoint_eq_ok.mp h
  have hky := collection_eq hr
  have hsm : get (collection child.role) e = get (collection child.role) d := by
    rcases hky with hky | hky <;> rw [hky]
    · exact hdr
    · exact hs
  refine ⟨set (collection child.role)
    (.array ((listOf (get (collection child.role) d)).getD [] ++ [value])) e, ?_, ?_, ?_,
    ascending_set hd, ascending_set he, fun k hk hk' => ?_⟩
  · refine raiseIf_bind.mpr ⟨by rw [not_and_or, not_not, not_not]; exact hr, ?_⟩
    simp only [lookupOrRaise, hv, hsm, bind, Except.bind, pure, Except.pure]
  · rw [get_set, get_set, hdr]
  · rw [get_set, get_set, hs]
  · have hne : k ≠ collection child.role := by
      rcases hky with hky | hky <;> rw [hky]
      · exact hk
      · exact hk'
    rw [get_set, if_neg hne, get_set, if_neg hne]
    exact ⟨rfl, rfl⟩

theorem foldRecord_endpointStep (id : String) : ∀ {children : List EndpointView} {d d' e : Dict},
    children.foldlM appendEndpoint d = .ok d' → get "drivers" e = get "drivers" d →
    get "sinks" e = get "sinks" d → Ascending d → Ascending e →
    ∃ e', foldRecord endpointStep (some e)
        (children.map fun child => { id := id, view := child }) = .ok (some e') ∧
      get "drivers" e' = get "drivers" d' ∧ get "sinks" e' = get "sinks" d' ∧
      Ascending d' ∧ Ascending e' ∧ ∀ k, k ≠ "drivers" → k ≠ "sinks" →
        get k e' = get k e ∧ get k d' = get k d
  | [], d, d', e, h, hdr, hs, hd, he => by
    cases h
    exact ⟨e, rfl, hdr, hs, hd, he, fun _ _ _ => ⟨rfl, rfl⟩⟩
  | child :: children, d, d', e, h, hdr, hs, hd, he => by
    rw [foldlM_cons] at h
    obtain ⟨d₁, hst, hr⟩ := bind_eq_ok.mp h
    obtain ⟨e₁, hst', hdr₁, hs₁, hd₁, he₁, ho₁⟩ :=
      endpointStep_transfer id hst hdr hs hd he
    obtain ⟨e₂, hr', hdr₂, hs₂, hd₂, he₂, ho₂⟩ :=
      foldRecord_endpointStep id hr hdr₁ hs₁ hd₁ he₁
    refine ⟨e₂, ?_, hdr₂, hs₂, hd₂, he₂, fun k hk hk' => ?_⟩
    · rw [map_cons, foldRecord_cons, hst']
      exact hr'
    · exact ⟨(ho₂ k hk hk').1.trans (ho₁ k hk hk').1,
        (ho₂ k hk hk').2.trans (ho₁ k hk hk').2⟩

def setFields (row : NetView) (d : Dict) : Dict :=
  setPresent "fanout" row.fanout (setPresent "bus_index" row.busIndex
    (setPresent "yosys_bit" row.yosysBit (setPresent "name" row.name d)))

theorem get_setPresent_column {column : Sql} : get k (setPresent key column d) =
    if k = key ∧ column ≠ .null then some column.toJson else get k d := by
  unfold setPresent
  split_ifs with h h' h'
  · exact absurd h h'.2
  · rfl
  · rw [get_set, if_pos h'.1]
  · rw [get_set, if_neg fun hk => h' ⟨hk, h⟩]

theorem get_setFields (row : NetView) :
    get k (setFields row d) = (get k (setFields row [])).or (get k d) := by
  simp only [setFields, get_setPresent_column]
  split_ifs <;> simp

theorem ascending_setFields {row : NetView} (h : Ascending d) : Ascending (setFields row d) :=
  ascending_setPresent (ascending_setPresent (ascending_setPresent (ascending_setPresent h)))

/-- The selective record of a net is the full one without its aliases. -/
theorem selectedNet_of_compactNet {row : NetView} {names : List AliasRow} {record : Json}
    {more : Dict} (id : String) (hmr : row.extrasJson = some (json (.object more)))
    (has : Ascending more) (hcl : ∀ k ∈ netColumns, get k more = none)
    (h : compactNet row names children = .ok record) :
    ∃ d base, record = .object d ∧ Ascending d ∧ get "id" d = some row.id.toJson ∧
      get "aliases" d = some (.array (names.map fun name => name.name.toJson)) ∧
      selectedNet row = .ok base ∧
      foldRecord endpointStep (some base) (children.map fun child => { id := id, view := child }) =
          .ok (some (without ["aliases"] d)) := by
  have hdc : decodeRecord row.extrasJson "net extras" = .ok more := by
    rw [hmr, decodeRecord_json]
  rw [compactNet, hdc] at h
  obtain ⟨_, hfn, h⟩ := bind_eq_ok.mp h
  cases hfn
  obtain ⟨d, hfd, hrc⟩ := bind_eq_ok.mp h
  cases hrc
  -- the two records before the endpoints, at every key
  generalize hfu : update (display [("id", row.id.toJson), ("cut_class", row.cutClass.toJson),
    ("drivers", Json.array []), ("sinks", .array []),
    ("aliases", .array (names.map fun name => name.name.toJson))]) more = full at hfd
  have hfl : Ascending full := hfu ▸ ascending_update ascending_display
  have hgt : ∀ k, get k full = (get k more).or (get k (display [("id", row.id.toJson),
      ("cut_class", row.cutClass.toJson), ("drivers", Json.array []), ("sinks", .array []),
      ("aliases", .array (names.map fun name => name.name.toJson))])) := fun k => by
    rw [← hfu, get_update has]
  generalize hbs : update (display [("id", row.id.toJson), ("cut_class", row.cutClass.toJson),
    ("drivers", Json.array []), ("sinks", .array [])]) more = base
  have hgb : ∀ k, get k base = (get k more).or (get k (display [("id", row.id.toJson),
      ("cut_class", row.cutClass.toJson), ("drivers", Json.array []), ("sinks", .array [])])) :=
    fun k => by rw [← hbs, get_update has]
  have hsl : selectedNet row = .ok (setFields row base) := by
    rw [selectedNet, hdc, ← hbs]
    rfl
  have hls : ∀ k, k = "drivers" ∨ k = "sinks" → get k (setFields row base) = get k full := by
    rintro k (rfl | rfl) <;>
      · rw [get_setFields, hgb, hgt]
        simp [setFields, get_setPresent_column, display, update, get_set]
  obtain ⟨e, hrw, hdr, hsn, hd, he, hot⟩ := foldRecord_endpointStep id hfd
    (hls _ (.inl rfl)) (hls _ (.inr rfl)) hfl
    (ascending_setFields (hbs ▸ ascending_update ascending_display))
  have hcm : ∀ k, k ≠ "drivers" → k ≠ "sinks" → k ∈ ["id", "aliases"] →
      get k (setFields row d) = get k full := by
    intro k hk hk' hmm
    rw [get_setFields, (hot k hk hk').2]
    simp only [mem_cons, not_mem_nil, or_false] at hmm
    rcases hmm with rfl | rfl <;> simp [setFields, get_setPresent_column]
  refine ⟨setFields row d, setFields row base, rfl, ascending_setFields hd, ?_, ?_, hsl, ?_⟩
  · rw [hcm _ (by decide) (by decide) (by simp), hgt, hcl _ (by simp [netColumns])]
    simp [display, update, get_set]
  · rw [hcm _ (by decide) (by decide) (by simp), hgt, hcl _ (by simp [netColumns])]
    simp [display, update, get_set]
  · rw [hrw]
    refine congrArg (fun d => Except.ok (some d))
      (ext he (ascending_without (ascending_setFields hd)) fun k => ?_)
    rw [get_without]
    by_cases hal : k ∈ ["aliases"]
    · rw [if_pos hal]
      obtain rfl := mem_singleton.mp hal
      rw [(hot _ (by decide) (by decide)).1, get_setFields, hgb,
        hcl _ (by simp [netColumns])]
      simp [setFields, get_setPresent_column, display, update, get_set]
    rw [if_neg hal, get_setFields]
    by_cases hk : k = "drivers"
    · subst hk
      rw [hdr]
      simp [setFields, get_setPresent_column]
    by_cases hk' : k = "sinks"
    · subst hk'
      rw [hsn]
      simp [setFields, get_setPresent_column]
    rw [(hot k hk hk').1, (hot k hk hk').2, get_setFields, hgb, hgt]
    have hne : k ≠ "aliases" := by simpa using hal
    simp [display, update, get_set, hne]

/-! ## the owners of one net -/

def instanceOf (endpoint : Json) : Option Json :=
  ((dictOf (some endpoint)).bind (get "instance")).filter (· ≠ .null)

def ownersIn (key : String) (record : Dict) : List Json :=
  ((listOf (get key record)).getD []).filterMap instanceOf

def ownersOf (record : Dict) : List Json × List Json :=
  (ownersIn "drivers" record, ownersIn "sinks" record)

def NetOwners.toJson (owners : NetOwners) : List Json × List Json :=
  (owners.drivers.map Sql.toJson, owners.sinks.map Sql.toJson)

def EndpointView.ownerRow (id : String) (child : EndpointView) : OwnerRow where
  id := id
  role := some child.role
  ordinal := some child.ordinal
  instanceId := child.instanceId

/-- The payload of an endpoint names no field that has its own column. -/
def EndpointView.Plain (child : EndpointView) : Prop :=
  (∃ s, child.instanceId = .null ∨ child.instanceId = .text s) ∧
    ∃ more, child.extrasJson = some (json (.object more)) ∧ Ascending more ∧
      ∀ k ∈ endpointColumns, get k more = none

theorem instanceOf_endpointRecord {value : Json} (hp : child.Plain)
    (h : endpointRecord child = .ok value) :
    instanceOf value = if child.instanceId = .null then none else some child.instanceId.toJson := by
  obtain ⟨⟨s, hid⟩, more, hm, ha, hc⟩ := hp
  rw [endpointRecord, hm, decodeRecord_json] at h
  obtain ⟨_, hf, hv⟩ := bind_eq_ok.mp h
  cases hf
  cases hv
  have hg : get "instance" (update (display [("instance", child.instanceId.toJson),
      ("port", child.port.toJson), ("bit", child.bit.toJson)]) more) =
      some child.instanceId.toJson := by
    rw [get_update ha, hc _ (by simp [endpointColumns])]
    simp [display, update, get_set]
  simp only [instanceOf, dictOf, Option.bind_some, hg]
  rcases hid with hid | hid <;> simp [hid, Sql.toJson]

theorem ownersStep_appendEndpoint (id : String) {owners : NetOwners} (hp : child.Plain)
    (h : appendEndpoint d child = .ok d') (ho : owners.toJson = ownersOf d) :
    ∃ owners', ownersStep (some owners) (child.ownerRow id) = .ok owners' ∧
      owners'.toJson = ownersOf d' := by
  obtain ⟨hr, -, value, hv, rfl⟩ := appendEndpoint_eq_ok.mp h
  have hi := instanceOf_endpointRecord hp hv
  obtain ⟨hd, hs⟩ := Prod.mk.inj ho
  have hst : ∀ key, ownersIn key (set (collection child.role)
      (.array ((listOf (get (collection child.role) d)).getD [] ++ [value])) d) =
      if key = collection child.role then
        ownersIn key d ++ (instanceOf value).toList else ownersIn key d := by
    intro key
    unfold ownersIn
    rw [get_set]
    split_ifs with hk
    · subst hk
      simp [listOf, filterMap_append, filterMap_cons]
      cases instanceOf value <;> rfl
    · rfl
  by_cases hn : child.instanceId = .null
  · rw [if_pos hn] at hi
    refine ⟨owners, ?_, ?_⟩
    · simp [ownersStep, EndpointView.ownerRow, hn]
    · rw [ownersOf, hst, hst, hi, ho]
      simp [ownersOf]
  · rw [if_neg hn] at hi
    refine ⟨owners.append child.role child.instanceId, ?_, ?_⟩
    · have hg : ¬ (child.role ≠ 0 ∧ child.role ≠ 1) := by
        rw [not_and_or, not_not, not_not]
        exact hr
      unfold ownersStep EndpointView.ownerRow
      dsimp only
      rw [if_neg hn]
      exact raiseIf_bind.mpr ⟨hg, rfl⟩
    · rw [ownersOf, hst, hst, hi]
      rcases hr with hr | hr <;>
        simp [NetOwners.toJson, NetOwners.append, collection, hr, ← hd, ← hs]

theorem foldRecord_ownersStep (id : String) : ∀ {children : List EndpointView} {d d' : Dict}
    (owners : NetOwners), (∀ child ∈ children, child.Plain) →
    children.foldlM appendEndpoint d = .ok d' → owners.toJson = ownersOf d →
    ∃ owners', foldRecord ownersStep (some owners)
        (children.map (EndpointView.ownerRow id)) = .ok (some owners') ∧
      owners'.toJson = ownersOf d'
  | [], d, d', owners, _, h, ho => by
    cases h
    exact ⟨owners, rfl, ho⟩
  | child :: children, d, d', owners, hp, h, ho => by
    rw [foldlM_cons] at h
    obtain ⟨d₁, hs, hr⟩ := bind_eq_ok.mp h
    obtain ⟨hch, hc⟩ := forall_mem_cons.mp hp
    obtain ⟨owners₁, hs', ho₁⟩ := ownersStep_appendEndpoint id hch hs ho
    obtain ⟨owners₂, hr', ho₂⟩ := foldRecord_ownersStep id owners₁ hc hr ho₁
    refine ⟨owners₂, ?_, ho₂⟩
    rw [map_cons, foldRecord_cons, hs']
    exact hr'

def ownerRowsOf (id : String) : List EndpointView → List OwnerRow
  | [] => [{ id := id, role := none, ordinal := none, instanceId := .null }]
  | children => children.map (EndpointView.ownerRow id)

theorem selectedOwners_of_compactNet {row : NetView} {names : List AliasRow} {more : Dict}
    (id : String) (hm : row.extrasJson = some (json (.object more)))
    (ha : Ascending more) (hc : ∀ k ∈ netColumns, get k more = none)
    (hp : ∀ child ∈ children, child.Plain)
    (h : compactNet row names children = .ok (.object d)) :
    ∃ owners, foldRecord ownersStep none (ownerRowsOf id children) = .ok (some owners) ∧
      owners.toJson = ownersOf d := by
  rw [compactNet, hm, decodeRecord_json] at h
  obtain ⟨_, hf, h⟩ := bind_eq_ok.mp h
  cases hf
  obtain ⟨d₁, hfl, hrc⟩ := bind_eq_ok.mp h
  cases hrc
  have hs : ownersOf (update (display [("id", row.id.toJson),
      ("cut_class", row.cutClass.toJson), ("drivers", Json.array []), ("sinks", .array []),
      ("aliases", .array (names.map fun name => name.name.toJson))]) more) = ([], []) := by
    unfold ownersOf ownersIn
    rw [get_update ha, get_update ha, hc _ (by simp [netColumns]),
      hc "sinks" (by simp [netColumns])]
    simp [display, update, get_set, listOf]
  obtain ⟨owners, hr, ho⟩ := foldRecord_ownersStep id {} hp hfl hs.symm
  have hl : ownersOf (setFields row d₁) = ownersOf d₁ := by
    simp [ownersOf, ownersIn, setFields, get_setPresent_column]
  refine ⟨owners, ?_, ho.trans hl.symm⟩
  cases children with
  | nil =>
    cases hr
    rfl
  | cons child children =>
    rw [← hr]
    rfl

end record

/-! ## the rows of one identifier in a batch -/

section batch

variable {batch : List String} {k : String} {net : NetRow}

theorem CompactStore.Sound.eq_of_id (hs : store.Sound) {other : NetRow} (hn : net ∈ store.nets)
    (ho : other ∈ store.nets) (h : identifier other.id = identifier net.id) : other = net := by
  obtain ⟨s, hid⟩ := hs.netText net hn
  obtain ⟨s', hid'⟩ := hs.netText other ho
  rw [hid, hid'] at h
  exact inj_on_of_nodup_map hs.netIds ho hn (by rw [hid, hid', show s' = s from h])

theorem filter_nets_pos (hs : store.Sound) (hnt : net ∈ store.nets) (hid : net.id = .text k)
    (hk : k ∈ batch) :
    (store.nets.filter fun n => inBatch batch n.id && identifier n.id = k) = [net] := by
  have hnd : store.nets.Nodup := Nodup.of_map _ hs.netIds
  have hi : ∀ n ∈ store.nets, (inBatch batch n.id && identifier n.id = k) = true ↔ n = net := by
    intro n hn
    constructor
    · intro h
      rw [Bool.and_eq_true, decide_eq_true_eq] at h
      exact hs.eq_of_id hnt hn (by rw [h.2, hid, identifier])
    · rintro rfl
      simp [hid, identifier, inBatch_iff, hk]
  obtain ⟨before, after, hsp⟩ := append_of_mem hnt
  rw [hsp] at hnd hi ⊢
  obtain ⟨-, ha, hb⟩ := nodup_append.mp hnd
  have ho := (hi net (by simp)).mpr rfl
  rw [filter_append, filter_cons, if_pos ho, filter_eq_nil_iff.mpr,
    nil_append, filter_eq_nil_iff.mpr]
  · intro n hn hm
    rw [hi n (by simp [hn])] at hm
    exact (nodup_cons.mp ha).1 (hm ▸ hn)
  · intro n hn hm
    rw [hi n (by simp [hn])] at hm
    exact hb n hn net mem_cons_self hm

theorem filter_nets_neg (h : k ∉ batch ∨ ∀ net ∈ store.nets, net.id ≠ .text k) :
    (store.nets.filter fun n => inBatch batch n.id && identifier n.id = k) = [] := by
  refine filter_eq_nil_iff.mpr fun n hn hm => ?_
  rw [Bool.and_eq_true, decide_eq_true_eq, inBatch_iff] at hm
  obtain ⟨⟨s, hs', hid⟩, hk⟩ := hm
  rw [hid, identifier] at hk
  subst hk
  exact h.elim (fun h => h hs') fun h => h n hn hid

theorem filter_joined {ρ : Type} {f : NetRow → List ρ} {idOf : ρ → String} {q : NetRow → Bool}
    (hf : ∀ net, ∀ row ∈ f net, idOf row = identifier net.id) (k : String) :
    ∀ nets : List NetRow, ((nets.filter q).flatMap f).filter (fun row => idOf row = k) =
      (nets.filter fun net => q net && identifier net.id = k).flatMap f
  | [] => rfl
  | net :: nets => by
    have ih := filter_joined (q := q) hf k nets
    have ho : (f net).filter (fun row => idOf row = k) =
        if identifier net.id = k then f net else [] := by
      split_ifs with hk
      · exact filter_eq_self.mpr fun row hr => by simpa [hf net row hr] using hk
      · exact filter_eq_nil_iff.mpr fun row hr => by simpa [hf net row hr] using hk
    by_cases hq : q net = true
    · rw [filter_cons_of_pos hq, flatMap_cons, filter_append, ih, ho]
      by_cases hk : identifier net.id = k
      · rw [if_pos hk, filter_cons_of_pos (by simp [hq, hk]), flatMap_cons]
      · rw [if_neg hk, filter_cons_of_neg (by simp [hk]), nil_append]
    · rw [filter_cons_of_neg hq, ih, filter_cons_of_neg (by simp [hq])]

theorem childrenOf_perm (store : CompactStore) (seq : ℕ) :
    (store.childrenOf seq).Perm ((store.endpoints.filter fun row => row.netSeq = seq).map
      (EndpointRow.view store.cells store.pinNames store.payloads)) := by
  refine ((sortedBy_perm _ _).filter _).trans ?_
  rw [filter_map]
  exact Perm.refl _

theorem childrenOf_pairwise (hs : store.Sound) (seq : ℕ) :
    (store.childrenOf seq).Pairwise fun a b =>
      SortedSet.lex a.role a.ordinal < SortedSet.lex b.role b.ordinal := by
  have hk : (store.endpointViews.map fun row : EndpointView =>
      lex row.netSeq (lex row.role row.ordinal)).Nodup := by
    refine (((sortedBy_perm _ _).map _).nodup_iff).mpr ?_
    rw [map_map]
    exact hs.endpointKeys
  have hle : store.endpointViews.Pairwise fun a b =>
      lex a.netSeq (lex a.role a.ordinal) ≤
        lex b.netSeq (lex b.role b.ordinal) :=
    pairwise_sortedBy _ _
  refine ((hle.and (pairwise_map.mp hk)).sublist filter_sublist).imp_of_mem ?_
  intro a b ha hb hab
  have hsq : a.netSeq = b.netSeq := by
    have ha' := (mem_filter.mp ha).2
    have hb' := (mem_filter.mp hb).2
    rw [decide_eq_true_eq] at ha' hb'
    rw [ha', hb']
  rcases Prod.Lex.lt_iff.mp (lt_of_le_of_ne hab.1 hab.2) with hlt | ⟨-, hlt⟩
  · exact absurd (show a.netSeq < b.netSeq from hlt) (by rw [hsq]; exact lt_irrefl _)
  · exact hlt

theorem ownerRowsOf_perm {id : String} {children children' : List EndpointView}
    (h : children.Perm children') :
    (ownerRowsOf id children).Perm (ownerRowsOf id children') := by
  cases children with
  | nil => rw [h.nil_eq]
  | cons child children =>
    cases children' with
    | nil => exact absurd h.symm.nil_eq (by simp)
    | cons child' children' => exact h.map _

theorem joinOwners_eq (store : CompactStore) (net : NetRow) :
    joinOwners store net = ownerRowsOf (identifier net.id)
      ((store.endpoints.filter fun row => row.netSeq = net.seq).map
        (EndpointRow.view store.cells store.pinNames store.payloads)) := by
  unfold joinOwners
  cases store.endpoints.filter fun row => row.netSeq = net.seq with
  | nil => rfl
  | cons row rows =>
    simp only [ownerRowsOf, map_cons, map_map]
    rfl

theorem id_of_joinOwners {row : OwnerRow} (hr : row ∈ joinOwners store net) :
    row.id = identifier net.id := by
  rw [joinOwners_eq] at hr
  generalize (store.endpoints.filter fun row => row.netSeq = net.seq).map
    (EndpointRow.view store.cells store.pinNames store.payloads) = children at hr
  cases children with
  | nil => rw [mem_singleton.mp hr]
  | cons child children =>
    obtain ⟨_, -, rfl⟩ := mem_map.mp hr
    rfl

theorem joinEndpoints_eq (hs : store.Sound) (net : NetRow) :
    joinEndpoints store net = ((store.endpoints.filter fun row => row.netSeq = net.seq).map
      (EndpointRow.view store.cells store.pinNames store.payloads)).map
        (SelectedEndpoint.mk (identifier net.id)) := by
  unfold joinEndpoints
  rw [map_map, filter_congr fun row hr => ?_]
  · rfl
  · obtain ⟨more, hm, -⟩ := hs.endpointExtras row hr
    simp [hs.pins row hr, hm]

theorem lex_lt {κ : Type} [LinearOrder κ] {a b : ℕ} {x y : κ} (h : a < b ∨ a = b ∧ x < y) :
    SortedSet.lex a x < SortedSet.lex b y :=
  Prod.Lex.toLex_lt_toLex.mpr h

theorem filter_ownerRows (hs : store.Sound) (hn : net ∈ store.nets) (hid : net.id = .text k)
    (hk : k ∈ batch) : ((ownerRows store batch).filter fun row => row.id = k) =
      ownerRowsOf k (store.childrenOf net.seq) := by
  refine filter_sortedBy ?_ ?_
  · rw [filter_joined (fun net row hr => id_of_joinOwners hr), filter_nets_pos hs hn hid hk,
      flatMap_singleton, joinOwners_eq, hid]
    exact ownerRowsOf_perm (childrenOf_perm store net.seq).symm
  · have hst := childrenOf_pairwise hs net.seq
    cases hc : store.childrenOf net.seq with
    | nil => exact pairwise_singleton _ _
    | cons child children =>
      rw [hc] at hst
      refine pairwise_map.mpr (hst.imp fun {a b} ha => ?_)
      refine Prod.Lex.toLex_lt_toLex.mpr (.inr ⟨rfl, lex_lt ?_⟩)
      rcases Prod.Lex.lt_iff.mp ha with hlt | ⟨heq, hlt⟩
      · exact .inl (Nat.succ_lt_succ hlt)
      · exact .inr ⟨congrArg (· + 1) heq, Nat.succ_lt_succ hlt⟩

theorem filter_ownerRows_neg (h : k ∉ batch ∨ ∀ net ∈ store.nets, net.id ≠ .text k) :
    ((ownerRows store batch).filter fun row => row.id = k) = [] := by
  refine filter_sortedBy ?_ List.Pairwise.nil
  rw [filter_joined (fun net row hr => id_of_joinOwners hr), filter_nets_neg h]
  exact Perm.refl _

theorem filter_endpointRows (hs : store.Sound) (hn : net ∈ store.nets) (hid : net.id = .text k)
    (hk : k ∈ batch) : ((endpointRows store batch).filter fun row => row.id = k) =
      (store.childrenOf net.seq).map (SelectedEndpoint.mk k) := by
  refine filter_sortedBy ?_ ?_
  · rw [filter_joined (fun net row hr => ?_), filter_nets_pos hs hn hid hk,
      flatMap_singleton, joinEndpoints_eq hs, hid]
    · exact (childrenOf_perm store net.seq).symm.map _
    · obtain ⟨_, -, rfl⟩ := mem_map.mp hr
      rfl
  · refine pairwise_map.mpr ((childrenOf_pairwise hs net.seq).imp fun {a b} ha => ?_)
    exact Prod.Lex.toLex_lt_toLex.mpr (.inr ⟨rfl, ha⟩)

theorem filter_endpointRows_neg (h : k ∉ batch ∨ ∀ net ∈ store.nets, net.id ≠ .text k) :
    ((endpointRows store batch).filter fun row => row.id = k) = [] := by
  refine filter_sortedBy ?_ List.Pairwise.nil
  rw [filter_joined (fun net row hr => ?_), filter_nets_neg h]
  · exact Perm.refl _
  · obtain ⟨_, -, rfl⟩ := mem_map.mp hr
    rfl

theorem filter_selectedRows_perm (store : CompactStore) (batch : List String) (k : String) :
    ((selectedRows store batch).filter fun row => identifier row.id = k).Perm
      ((store.nets.filter fun n => inBatch batch n.id && identifier n.id = k).map
        (NetRow.view store.payloads)) := by
  rw [selectedRows, filter_filter]
  refine ((sortedBy_perm _ _).filter _).trans ?_
  rw [filter_map, filter_congr fun n _ => ?_]
  exact Bool.and_comm _ _

theorem filter_selectedRows (hs : store.Sound) (hn : net ∈ store.nets) (hid : net.id = .text k)
    (hk : k ∈ batch) : ((selectedRows store batch).filter fun row => identifier row.id = k) =
      [net.view store.payloads] := by
  have hp := filter_selectedRows_perm store batch k
  rw [filter_nets_pos hs hn hid hk] at hp
  exact perm_singleton.mp hp

theorem filter_selectedRows_neg (h : k ∉ batch ∨ ∀ net ∈ store.nets, net.id ≠ .text k) :
    ((selectedRows store batch).filter fun row => identifier row.id = k) = [] := by
  have hp := filter_selectedRows_perm store batch k
  rw [filter_nets_neg h] at hp
  exact perm_nil.mp hp

end batch

end EmuFlow.Storage
