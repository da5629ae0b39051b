import EmuFlow.Storage.NormalForm

/-!
# EmuIR storage: nets from their rows

Both stores keep a net as one row with the rows of its aliases and endpoints. `NetStored` says what
these rows have of the net; from it the two readers build the same normal form, and from the tables
that a whole list of nets fills they read the list back in its order.
-/

namespace EmuFlow.Storage

open Check SortedDict OwnedRows List SortedSet

/-! ## one net -/

theorem display_eq {items : Dict} :
    display items = items.foldl (fun d item => set item.1 item.2 d) [] := rfl

structure EndpointStored (role : ℕ) (value : Json) (child : EndpointView) : Prop where
  role : child.role = role
  read : endpointRecord child = .ok (overRecord normalEndpoint value)
  owned : ¬ ((child.instanceSeq.bind id).isSome = true ∧ child.instanceId = .null)

structure NetStored (record : Dict) (row : NetView) (names : List AliasRow)
    (drivers sinks : List EndpointView) : Prop where
  ascending : Ascending record
  id : ∃ s, get "id" record = some (.text s) ∧ row.id = .text s
  cutClass : ∃ s, get "cut_class" record = some (.text s) ∧ row.cutClass = .text s
  name : TextOrNull (getOrNone "name" record) ∧ row.name = columnOf (getOrNone "name" record)
  yosysBit : Int64OrNull (getOrNone "yosys_bit" record) ∧
    row.yosysBit = columnOf (getOrNone "yosys_bit" record)
  busIndex : Int64OrNull (getOrNone "bus_index" record) ∧
    row.busIndex = columnOf (getOrNone "bus_index" record)
  fanout : Int64OrNull (getOrNone "fanout" record) ∧
    row.fanout = columnOf (getOrNone "fanout" record)
  extrasJson : row.extrasJson = some (extras record netColumns)
  aliases : (get "aliases" record).getD (.array []) =
    .array (names.map fun name => name.name.toJson)
  drivers : ∃ l, get "drivers" record = some (.array l) ∧ Forall₂ (EndpointStored 0) l drivers
  sinks : ∃ l, get "sinks" record = some (.array l) ∧ Forall₂ (EndpointStored 1) l sinks

variable {record d : Dict} {row : NetView} {names : List AliasRow}
  {drivers sinks children : List EndpointView} {values : List Json} {role : ℕ}

theorem collection_ne : collection 0 ≠ collection 1 := by decide

theorem foldlM_appendEndpoint (hrl : role = 0 ∨ role = 1)
    (h : Forall₂ (EndpointStored role) values children) :
    ∀ {d : Dict} {old : List Json}, Ascending d → get (collection role) d = some (.array old) →
      ∃ d', children.foldlM appendEndpoint d = .ok d' ∧ Ascending d' ∧
        ∀ k, get k d' = if k = collection role then
          some (.array (old ++ values.map (overRecord normalEndpoint))) else get k d := by
  induction h with
  | nil =>
    intro d old hd ho
    refine ⟨d, rfl, hd, fun k => ?_⟩
    split_ifs with hk
    · rw [hk, ho, map_nil, append_nil]
    · rfl
  | @cons value child values children hv _ ih =>
    intro d old hd ho
    have hs : appendEndpoint d child = .ok (set (collection role)
        (.array (old ++ [overRecord normalEndpoint value])) d) := by
      have hr : ¬ (role ≠ 0 ∧ role ≠ 1) := by
        rcases hrl with rfl | rfl <;> simp
      rw [← hv.role] at hr ho ⊢
      simp only [appendEndpoint, raiseIf, if_neg hr, if_neg hv.owned, hv.read, ho, listOf,
        Option.getD_some, bind, Except.bind, pure, Except.pure]
    obtain ⟨d', hf, hd', hg⟩ := ih (ascending_set hd) (by rw [get_set, if_pos rfl])
    refine ⟨d', ?_, hd', fun k => ?_⟩
    · rw [foldlM_cons, hs]
      exact hf
    · rw [hg k, get_set, append_assoc, map_cons, singleton_append]
      split_ifs <;> rfl

/-- What the updates of both readers end with: the fields that may be null. -/
theorem fields_eq (h : NetStored record row names drivers sinks) (hd : Ascending d)
    (hg : ∀ k, k ∉ netColumns → get k d = get k record)
    (hid : get "id" d = get "id" record) (hc : get "cut_class" d = get "cut_class" record)
    (ha : get "aliases" d = some (.array (names.map fun name => name.name.toJson)))
    (hdr : get "drivers" d = (get "drivers" record).map (overItems normalEndpoint))
    (hs : get "sinks" d = (get "sinks" record).map (overItems normalEndpoint))
    (hn : ∀ k ∈ ["name", "yosys_bit", "bus_index", "fanout"], get k d = none) :
    setPresent "fanout" row.fanout (setPresent "bus_index" row.busIndex
      (setPresent "yosys_bit" row.yosysBit (setPresent "name" row.name d))) = normalNet record := by
  simp only [forall_mem_cons, not_mem_nil, false_implies, implies_true, and_true] at hn
  obtain ⟨hnm, hy, hb, hf⟩ := hn
  rw [h.name.2, h.yosysBit.2, h.busIndex.2, h.fanout.2]
  refine ext ?_ ?_ fun k => ?_
  · exact ascending_setPresent (ascending_setPresent (ascending_setPresent
      (ascending_setPresent hd)))
  · exact ascending_dropNull (ascending_dropNull (ascending_dropNull (ascending_dropNull
      (ascending_setDefault (ascending_mapField (ascending_mapField h.ascending))))))
  simp only [get_setPresent (.inl h.name.1), get_setPresent (.inr h.yosysBit.1),
    get_setPresent (.inr h.busIndex.1), get_setPresent (.inr h.fanout.1)]
  simp only [normalNet, present, getOrNone, get_dropNull, get_setDefault, get_mapField]
  by_cases hk : k ∈ netColumns
  · simp only [netColumns, mem_cons, not_mem_nil, or_false] at hk
    rcases hk with rfl | rfl | rfl | rfl | rfl | rfl | rfl | rfl | rfl <;>
      simp [hid, hc, ha, h.aliases, hdr, hs, hnm, hy, hb, hf]
  · rw [hg k hk]
    simp only [netColumns, mem_cons, not_mem_nil, or_false, not_or] at hk
    simp [hk]

/-- The reader of the compact store, which `repack_emuir` uses on a historical one too. -/
theorem compactNet_eq (h : NetStored record row names drivers sinks) :
    compactNet row names (drivers ++ sinks) = .ok (.object (normalNet record)) := by
  obtain ⟨id, hid, hr⟩ := h.id
  obtain ⟨cut, hc, hrw⟩ := h.cutClass
  obtain ⟨driverValues, hd, hdr⟩ := h.drivers
  obtain ⟨sinkValues, hs, hsn⟩ := h.sinks
  have hm : decodeRecord row.extrasJson "net extras" = .ok (without netColumns record) := by
    rw [h.extrasJson, decodeRecord_extras]
  generalize hb : update (display [("id", row.id.toJson), ("cut_class", row.cutClass.toJson),
    ("drivers", Json.array []), ("sinks", Json.array []),
    ("aliases", Json.array (names.map fun name => name.name.toJson))])
      (without netColumns record) = base
  have hbc : Ascending base := hb ▸ ascending_update ascending_display
  have hg : ∀ k, get k base = _ := fun k => by
    rw [← hb, get_update (ascending_without h.ascending), get_without, display_eq]
  obtain ⟨d₁, hd₁, ha₁, hg₁⟩ := foldlM_appendEndpoint (.inl rfl) hdr hbc
    (show get _ base = some (.array []) by rw [hg]; simp [collection, netColumns])
  obtain ⟨d₂, hd₂, ha₂, hg₂⟩ := foldlM_appendEndpoint (.inr rfl) hsn ha₁
    (show get _ d₁ = some (.array []) by
      rw [hg₁, if_neg collection_ne.symm, hg]
      simp [collection, netColumns])
  have hf : (drivers ++ sinks).foldlM appendEndpoint base = .ok d₂ := by
    rw [foldlM_append, hd₁]
    exact hd₂
  simp only [compactNet, hm, hb, hf, bind, Except.bind, pure, Except.pure]
  refine congrArg (fun d => Except.ok (Json.object d)) (fields_eq h ha₂ ?_ ?_ ?_ ?_ ?_ ?_ ?_)
  · intro k hk
    rw [hg₂, hg₁, hg]
    simp only [netColumns, mem_cons, not_mem_nil, or_false, not_or] at hk
    simp [collection, netColumns, hk]
  · rw [hg₂, hg₁, hg]
    simp [collection, netColumns, hid, hr, Sql.toJson]
  · rw [hg₂, hg₁, hg]
    simp [collection, netColumns, hc, hrw, Sql.toJson]
  · rw [hg₂, hg₁, hg]
    simp [collection, netColumns]
  · rw [hg₂, hg₁]
    simp [collection, hd, overItems]
  · rw [hg₂]
    simp [collection, hs, overItems]
  · simp only [forall_mem_cons, not_mem_nil, false_implies, implies_true, and_true]
    refine ⟨?_, ?_, ?_, ?_⟩ <;>
      · rw [hg₂, hg₁, hg]
        simp [collection, netColumns]

theorem mapM_endpointRecord (h : Forall₂ (EndpointStored role) values children) :
    children.mapM endpointRecord = .ok (values.map (overRecord normalEndpoint)) := by
  induction h with
  | nil => exact mapM_nil_eq_ok.mpr rfl
  | cons hv _ ih => exact mapM_cons_eq_ok.mpr ⟨_, _, hv.read, ih, rfl⟩

theorem role_of_stored (h : Forall₂ (EndpointStored role) values children) :
    ∀ child ∈ children, child.role = role := by
  induction h with
  | nil => exact fun _ h => absurd h not_mem_nil
  | cons hv _ ih => exact forall_mem_cons.mpr ⟨hv.role, ih⟩

theorem netRecord_eq (h : NetStored record row names drivers sinks) :
    netRecord row names (drivers ++ sinks) = .ok (.object (normalNet record)) := by
  obtain ⟨id, hid, hr⟩ := h.id
  obtain ⟨cut, hc, hrw⟩ := h.cutClass
  obtain ⟨driverValues, hd, hdv⟩ := h.drivers
  obtain ⟨sinkValues, hss, hsk⟩ := h.sinks
  have hdr := role_of_stored hdv
  have hs := role_of_stored hsk
  have hrl : (forM (drivers ++ sinks) fun child => raiseIf (child.role ≠ 0 ∧ child.role ≠ 1)
      (EmuFlowError.valueError "EmuIR SQLite invalid endpoint role" [])) = .ok () := by
    refine forM_eq_ok.mpr fun child hch => raiseIf_eq_ok.mpr ?_
    rcases List.mem_append.mp hch with hch | hch
    · simp [hdr child hch]
    · simp [hs child hch]
  have hf : (drivers ++ sinks).filter (fun child => child.role = 0) = drivers := by
    rw [filter_append, filter_eq_self.mpr fun child hch => by
      simpa using hdr child hch, filter_eq_nil_iff.mpr fun child hch => by
      simp [hs child hch], append_nil]
  have hf' : (drivers ++ sinks).filter (fun child => child.role ≠ 0) = sinks := by
    rw [filter_append, filter_eq_nil_iff.mpr fun child hch => by
      simp [hdr child hch], filter_eq_self.mpr fun child hch => by
      simp [hs child hch], nil_append]
  have hm : decodeRecord row.extrasJson "net extras" = .ok (without netColumns record) := by
    rw [h.extrasJson, decodeRecord_extras]
  rw [netRecord, hrl, hf, hf', mapM_endpointRecord hdv,
    mapM_endpointRecord hsk, hm]
  refine congrArg (fun d => Except.ok (Json.object d))
    (fields_eq h (ascending_update ascending_display) ?_ ?_ ?_ ?_ ?_ ?_ ?_)
  · intro k hk
    rw [get_update (ascending_without h.ascending), get_without, display_eq, if_neg hk]
    simp only [netColumns, mem_cons, not_mem_nil, or_false, not_or] at hk
    simp [hk]
  · rw [get_update (ascending_without h.ascending), get_without, display_eq]
    simp [netColumns, hid, hr, Sql.toJson]
  · rw [get_update (ascending_without h.ascending), get_without, display_eq]
    simp [netColumns, hc, hrw, Sql.toJson]
  · rw [get_update (ascending_without h.ascending), get_without, display_eq]
    simp [netColumns]
  · rw [get_update (ascending_without h.ascending), get_without, display_eq]
    simp [netColumns, hd, overItems]
  · rw [get_update (ascending_without h.ascending), get_without, display_eq]
    simp [netColumns, hss, overItems]
  · simp only [forall_mem_cons, not_mem_nil, false_implies, implies_true, and_true]
    refine ⟨?_, ?_, ?_, ?_⟩ <;>
      · rw [get_update (ascending_without h.ascending), get_without, display_eq]
        simp [netColumns]

/-! ## all nets -/

structure NetImage where
  row : NetView
  names : List AliasRow
  drivers : List EndpointView
  sinks : List EndpointView

def NetImage.endpoints (image : NetImage) : List EndpointView := image.drivers ++ image.sinks

structure NetImaged (seq : ℕ) (value : Json) (image : NetImage) : Prop where
  number : image.row.seq = seq
  names_owner : ∀ name ∈ image.names, name.netSeq = seq
  names_order : image.names.Pairwise fun a b => a.ordinal < b.ordinal
  endpoints_owner : ∀ child ∈ image.endpoints, child.netSeq = seq
  drivers_order : image.drivers.Pairwise fun a b => a.ordinal < b.ordinal
  sinks_order : image.sinks.Pairwise fun a b => a.ordinal < b.ordinal
  stored : ∃ record, value = .object record ∧
    NetStored record image.row image.names image.drivers image.sinks

variable {n seq : ℕ} {value : Json} {nets : List Json} {image : NetImage} {images : List NetImage}

theorem lex_le {κ : Type} [LinearOrder κ] {a b : ℕ} {x y : κ} (h : a < b ∨ a = b ∧ x ≤ y) :
    lex a x ≤ lex b y :=
  Prod.Lex.toLex_le_toLex.mpr h

theorem NetImaged.endpoints_order (h : NetImaged seq value image) :
    image.endpoints.Pairwise fun a b => lex a.netSeq (lex a.role a.ordinal) ≤
      lex b.netSeq (lex b.role b.ordinal) := by
  obtain ⟨record, -, hst⟩ := h.stored
  obtain ⟨_, -, hd⟩ := hst.drivers
  obtain ⟨_, -, hs⟩ := hst.sinks
  have hsq : ∀ a ∈ image.endpoints, ∀ b ∈ image.endpoints, a.netSeq = b.netSeq :=
    fun a ha b hb => (h.endpoints_owner a ha).trans (h.endpoints_owner b hb).symm
  refine pairwise_append.mpr ⟨?_, ?_, fun a ha b hb => ?_⟩
  · refine h.drivers_order.imp_of_mem fun {a b} ha hb hab =>
      lex_le (.inr ⟨?_, lex_le (.inr ⟨?_, hab.le⟩)⟩)
    · exact hsq a (mem_append_left _ ha) b (mem_append_left _ hb)
    · rw [role_of_stored hd a ha, role_of_stored hd b hb]
  · refine h.sinks_order.imp_of_mem fun {a b} ha hb hab =>
      lex_le (.inr ⟨?_, lex_le (.inr ⟨?_, hab.le⟩)⟩)
    · exact hsq a (mem_append_right _ ha) b (mem_append_right _ hb)
    · rw [role_of_stored hs a ha, role_of_stored hs b hb]
  · refine lex_le (.inr ⟨hsq a (mem_append_left _ ha) b (mem_append_right _ hb), ?_⟩)
    refine lex_le (.inl ?_)
    rw [role_of_stored hd a ha, role_of_stored hs b hb]
    exact Nat.zero_lt_one

theorem orders_eq (h : Numbered NetImaged n nets images) :
    orderBySeq NetView.seq (images.map NetImage.row) = images.map NetImage.row ∧
      orderEndpoints (images.flatMap NetImage.endpoints) = images.flatMap NetImage.endpoints ∧
      orderAliases (images.flatMap NetImage.names) = images.flatMap NetImage.names := by
  refine ⟨?_, ?_, ?_⟩
  · exact orderBySeq_of_pairwise (pairwise_map.mpr (h.pairwise fun _ _ _ hi => hi.number))
  · exact sortedBy_eq_self (h.pairwise_flatMap (fun _ _ _ hi => hi.endpoints_owner)
      (fun _ _ _ hi => hi.endpoints_order) fun _ _ hlt => lex_le (.inl hlt))
  · refine sortedBy_eq_self (h.pairwise_flatMap (fun _ _ _ hi => hi.names_owner)
      (fun _ _ _ hi => ?_) fun _ _ hlt => lex_le (.inl hlt))
    refine hi.names_order.imp_of_mem fun {a b} ha hb hab => lex_le (.inr ⟨?_, hab.le⟩)
    rw [hi.names_owner a ha, hi.names_owner b hb]

theorem netsLoops_eq (h : Numbered NetImaged n nets images) :
    compactNetsLoop (images.map NetImage.row) (images.flatMap NetImage.endpoints)
        (images.flatMap NetImage.names) = .ok (nets.map (overRecord normalNet)) ∧
      netsLoop (images.map NetImage.row) (images.flatMap NetImage.endpoints)
        (images.flatMap NetImage.names) = .ok (nets.map (overRecord normalNet)) := by
  induction h with
  | nil => exact ⟨rfl, rfl⟩
  | @cons n value nets image images him hr ih =>
    obtain ⟨record, rfl, hs⟩ := him.stored
    have hn := take_append (orphaned "net_seq") him.names_owner
      fun row hrw => hr.le_owner_flatMap (fun _ _ _ hi => hi.names_owner) row hrw
    have he := take_append (orphaned "net_seq") him.endpoints_owner
      fun row hrw => hr.le_owner_flatMap (fun _ _ _ hi => hi.endpoints_owner) row hrw
    have hc : compactNet image.row image.names image.endpoints = .ok _ :=
      compactNet_eq hs
    have hrc : netRecord image.row image.names image.endpoints = .ok _ := netRecord_eq hs
    rw [map_cons, map_cons, flatMap_cons, flatMap_cons, compactNetsLoop,
      netsLoop, him.number, hn, he]
    simp only [bind, Except.bind, hc, hrc, ih.1, ih.2, pure, Except.pure, overRecord,
      and_self]

end EmuFlow.Storage
