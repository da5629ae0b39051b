import EmuFlow.Storage.SelectedReaders
import EmuFlow.Storage.RoundTrip

/-!
# EmuIR storage: the readers of selected nets agree with the full reader

Batch by batch the selective readers put under every identifier what its own rows make. The owners
are those of the full reader; the records lack the aliases, so that they are the records of the full
reader only when nothing is found.
-/

namespace EmuFlow.Storage

open Check SortedDict SortedSet Except

variable {store : CompactStore} {records : List Json}

/-! ## all batches -/

theorem foldlM_batches {β : Type} {expected : String → Option β}
    {step : List (String × β) → List String → Result (List (String × β))}
    (hs : ∀ (batch : List String) (result : List (String × β)),
      (∀ k ∈ batch, get k result = none) → ∃ result', step result batch = .ok result' ∧
        ∀ k, get k result' = if k ∈ batch then expected k else get k result) :
    ∀ (batches : List (List String)) (result : List (String × β)), batches.flatten.Nodup →
      (∀ k ∈ batches.flatten, get k result = none) →
      ∃ result', batches.foldlM step result = .ok result' ∧
        ∀ k, get k result' = if k ∈ batches.flatten then expected k else get k result
  | [], result, _, _ => ⟨result, rfl, fun _ => by simp⟩
  | batch :: batches, result, hnd, hn => by
    rw [List.flatten_cons] at hnd hn
    obtain ⟨-, hr, hd⟩ := List.nodup_append.mp hnd
    obtain ⟨result₁, hbt, hg⟩ := hs batch result fun k hk =>
      hn k (List.mem_append_left _ hk)
    have hf : ∀ k ∈ batches.flatten, k ∉ batch := fun k hk hk' =>
      hd k hk' k hk rfl
    obtain ⟨result₂, hb, hg'⟩ := foldlM_batches hs batches result₁ hr
      fun k hk => by rw [hg, if_neg (hf k hk), hn k (List.mem_append_right _ hk)]
    refine ⟨result₂, ?_, fun k => ?_⟩
    · rw [List.foldlM_cons, hbt]
      exact hb
    · rw [hg', hg, List.flatten_cons]
      simp only [List.mem_append]
      by_cases hk : k ∈ batches.flatten
      · simp [hk]
      · by_cases hk' : k ∈ batch <;> simp [hk, hk']

variable {netIds : List String}

def CompactStore.Has (store : CompactStore) (netIds : List String) : Prop :=
  ∀ k ∈ netIds, ∃ net ∈ store.nets, net.id = .text k

theorem requireFound_eq_ok {β : Type} {requested : List String} {result : List (String × β)} :
    requireFound requested result = .ok () ↔ ∀ k ∈ requested, get k result ≠ none := by
  simp [requireFound, missingNets]

theorem plain_of_child (hs : store.Sound) {seq : ℕ} {child : EndpointView}
    (h : child ∈ store.childrenOf seq) : child.Plain := by
  obtain ⟨row, hr, rfl⟩ := List.mem_map.mp ((childrenOf_perm store seq).mem_iff.mp h)
  obtain ⟨hr, -⟩ := List.mem_filter.mp hr
  refine ⟨?_, hs.endpointExtras row hr⟩
  show ∃ s, joinedId store.cells row.instanceSeq = .null ∨
    joinedId store.cells row.instanceSeq = .text s
  unfold joinedId
  split
  · exact ⟨"", .inl rfl⟩
  · next cell hc =>
    obtain ⟨n, -, hf⟩ := Option.bind_eq_some_iff.mp hc
    obtain ⟨s, hid⟩ := hs.cellText cell (List.mem_of_find?_eq_some hf)
    exact ⟨s, .inr hid⟩

structure SelectedAs (store : CompactStore) (records : List Json) (net : NetRow) (k : String)
    (d : Dict) (owners : NetOwners) : Prop where
  yielded : .object d ∈ records
  id : get "id" d = some (.text k)
  aliases : (get "aliases" d).isSome = true
  selected : ∃ base, selectedNet (net.view store.payloads) = .ok base ∧
    foldRecord endpointStep (some base) ((store.childrenOf net.seq).map (SelectedEndpoint.mk k)) =
      .ok (some (without ["aliases"] d))
  owned : foldRecord ownersStep none (ownerRowsOf k (store.childrenOf net.seq)) = .ok (some owners)
  same : owners.toJson = ownersOf d

theorem exists_selectedAs (hs : store.Sound) (h : store.allNets = .ok records) {k : String}
    {net : NetRow} (hn : net ∈ store.nets) (hid : net.id = .text k) :
    ∃ d owners, SelectedAs store records net k d owners := by
  obtain ⟨record, hr, hc⟩ := (of_allNets hs h).2.1 net hn
  obtain ⟨more, hm, ha, hcl⟩ := hs.netExtras net hn
  obtain ⟨d, base, rfl, -, hg, hal, hb, hrw⟩ :=
    selectedNet_of_compactNet k hm ha hcl hc
  obtain ⟨owners, ho, hsm⟩ := selectedOwners_of_compactNet k hm ha hcl
    (fun child hch => plain_of_child hs hch) hc
  refine ⟨d, owners, hr, ?_, by rw [hal]; rfl, ⟨base, hb, hrw⟩, ho, hsm⟩
  rw [hg]
  show some net.id.toJson = _
  rw [hid, Sql.toJson]

/-- What the selective readers give for an identifier. -/
structure Expected (store : CompactStore) (records : List Json) (k : String)
    (record : Option Dict) (owners : Option NetOwners) : Prop where
  absent : (∀ net ∈ store.nets, net.id ≠ .text k) → record = none ∧ owners = none
  present : ∀ net ∈ store.nets, net.id = .text k → ∃ d o, SelectedAs store records net k d o ∧
    record = some (without ["aliases"] d) ∧ owners = some o

theorem exists_expected (hs : store.Sound) (h : store.allNets = .ok records) (k : String) :
    ∃ record owners, Expected store records k record owners := by
  by_cases hk : ∃ net ∈ store.nets, net.id = .text k
  · obtain ⟨net, hn, hid⟩ := hk
    obtain ⟨d, o, ha⟩ := exists_selectedAs hs h hn hid
    refine ⟨some (without ["aliases"] d), some o, fun hno => absurd hid (hno net hn),
      fun net' hn' hid' => ?_⟩
    obtain rfl := hs.eq_of_id hn hn' (by rw [hid, hid'])
    exact ⟨d, o, ha, rfl, rfl⟩
  · refine ⟨none, none, fun _ => ⟨rfl, rfl⟩, fun net hn hid => ?_⟩
    exact absurd ⟨net, hn, hid⟩ hk

variable {record : String → Option Dict} {owners : String → Option NetOwners}

theorem ownersBatch (hs : store.Sound)
    (he : ∀ k, Expected store records k (record k) (owners k)) (batch : List String)
    {result : List (String × NetOwners)} (hn : ∀ k ∈ batch, get k result = none) :
    ∃ result', (ownerRows store batch).foldlM (setStep OwnerRow.id ownersStep) result =
        .ok result' ∧ ∀ k, get k result' = if k ∈ batch then owners k else get k result := by
  have hr : ∀ k, foldRecord ownersStep (get k result)
      ((ownerRows store batch).filter fun row => row.id = k) =
        .ok (if k ∈ batch then owners k else get k result) := by
    intro k
    by_cases hk : k ∈ batch
    · rw [if_pos hk, hn k hk]
      by_cases hnt : ∃ net ∈ store.nets, net.id = .text k
      · obtain ⟨net, hnt, hid⟩ := hnt
        obtain ⟨d, o, ha, -, ho⟩ := (he k).present net hnt hid
        rw [filter_ownerRows hs hnt hid hk, ha.owned, ho]
      · have hno : ∀ net ∈ store.nets, net.id ≠ .text k := fun net h h' => hnt ⟨net, h, h'⟩
        rw [filter_ownerRows_neg (.inr hno), ((he k).absent hno).2]
        rfl
    · rw [if_neg hk, filter_ownerRows_neg (.inl hk)]
      rfl
  obtain ⟨result', hf, hg⟩ := foldlM_setStep (ownerRows store batch) result fun k => ⟨_, hr k⟩
  exact ⟨result', hf, fun k => ok.inj ((hg k).symm.trans (hr k))⟩

theorem recordsBatch (hs : store.Sound)
    (he : ∀ k, Expected store records k (record k) (owners k)) (batch : List String)
    {result : List (String × Dict)} (hnn : ∀ k ∈ batch, get k result = none) :
    ∃ mid result', (selectedRows store batch).foldlM
        (setStep (fun row => identifier row.id) fun _ row => selectedNet row) result = .ok mid ∧
      (endpointRows store batch).foldlM (setStep SelectedEndpoint.id endpointStep) mid =
        .ok result' ∧ ∀ k, get k result' = if k ∈ batch then record k else get k result := by
  -- after the rows of the nets
  have hnt : ∀ k, ∃ o, foldRecord (fun _ row => selectedNet row) (get k result)
      ((selectedRows store batch).filter fun row => identifier row.id = k) = .ok o := by
    intro k
    by_cases hk : k ∈ batch ∧ ∃ net ∈ store.nets, net.id = .text k
    · obtain ⟨hk, net, hn, hid⟩ := hk
      obtain ⟨d, o, ha, -, -⟩ := (he k).present net hn hid
      obtain ⟨base, hb, -⟩ := ha.selected
      refine ⟨some base, ?_⟩
      rw [filter_selectedRows hs hn hid hk, foldRecord_cons, hb]
      rfl
    · refine ⟨get k result, ?_⟩
      rw [filter_selectedRows_neg ((not_and_or.mp hk).imp_right fun h net hn hid =>
        h ⟨net, hn, hid⟩)]
      rfl
  obtain ⟨mid, hm, hg⟩ := foldlM_setStep (selectedRows store batch) result hnt
  have hr : ∀ k, foldRecord endpointStep (get k mid)
      ((endpointRows store batch).filter fun row => row.id = k) =
        .ok (if k ∈ batch then record k else get k result) := by
    intro k
    have hk' := hg k
    by_cases hk : k ∈ batch
    · rw [if_pos hk]
      by_cases hn : ∃ net ∈ store.nets, net.id = .text k
      · obtain ⟨net, hn, hid⟩ := hn
        obtain ⟨d, o, ha, hrc, -⟩ := (he k).present net hn hid
        obtain ⟨base, hb, hf⟩ := ha.selected
        rw [filter_selectedRows hs hn hid hk, foldRecord_cons, hb] at hk'
        rw [filter_endpointRows hs hn hid hk, ← ok.inj hk', hf, hrc]
      · have hno : ∀ net ∈ store.nets, net.id ≠ .text k := fun net h h' => hn ⟨net, h, h'⟩
        rw [filter_selectedRows_neg (.inr hno), hnn k hk] at hk'
        rw [filter_endpointRows_neg (.inr hno), ← ok.inj hk', ((he k).absent hno).1]
        rfl
    · rw [filter_selectedRows_neg (.inl hk)] at hk'
      rw [if_neg hk, filter_endpointRows_neg (.inl hk), ← ok.inj hk']
      rfl
  obtain ⟨result', hf, hg'⟩ := foldlM_setStep (endpointRows store batch) mid fun k => ⟨_, hr k⟩
  exact ⟨mid, result', hm, hf, fun k => ok.inj ((hg' k).symm.trans (hr k))⟩

theorem nodup_batches (netIds : List String) :
    (batchesOf 500 (sortedSet netIds)).flatten = sortedSet netIds ∧
      (batchesOf 500 (sortedSet netIds)).flatten.Nodup := by
  have h := flatten_batchesOf (by decide : 0 < 500) (sortedSet netIds)
  refine ⟨h, ?_⟩
  rw [h]
  exact nodup_sortedSet netIds

theorem require_spec {β : Type} (requested : List String) (result : List (String × β)) :
    (∀ k ∈ requested, get k result ≠ none) ∧
        (do requireFound requested result; return result) = ok result ∨
      (∃ k ∈ requested, get k result = none) ∧
        ∃ e, (do requireFound requested result; return result) = error e := by
  by_cases h : ∀ k ∈ requested, get k result ≠ none
  · exact .inl ⟨h, by rw [requireFound_eq_ok.mpr h]; rfl⟩
  · refine .inr ⟨by simpa using h, ?_⟩
    cases hr : requireFound requested result with
    | ok u => exact absurd (requireFound_eq_ok.mp hr) h
    | error e => exact ⟨e, rfl⟩

theorem requireFound_spec {β : Type} {result : List (String × β)} {f : String → Option β}
    (hf : ∀ k ∈ netIds, get k result = f k)
    (hp : ∀ k, (∃ net ∈ store.nets, net.id = .text k) → f k ≠ none)
    (ha : ∀ k, (¬ ∃ net ∈ store.nets, net.id = .text k) → f k = none) :
    (store.Has netIds →
      (do requireFound (sortedSet netIds) result; return result) = ok result) ∧
    (¬ store.Has netIds →
      ∃ e, (do requireFound (sortedSet netIds) result; return result) =
        error e) := by
  rcases require_spec (sortedSet netIds) result with ⟨hal, hok⟩ | ⟨⟨k, hk, hn⟩, he⟩
  · refine ⟨fun _ => hok, fun hh => absurd (fun k hk => ?_) hh⟩
    by_contra hno
    refine hal k (mem_sortedSet.mpr hk) ?_
    rw [hf k hk, ha k hno]
  · refine ⟨fun hh => ?_, fun _ => he⟩
    have hk := mem_sortedSet.mp hk
    rw [hf k hk] at hn
    exact absurd hn (hp k (hh k hk))

theorem selectedNetInstanceEndpoints_spec (hs : store.Sound) (h : store.allNets = .ok records)
    (netIds : List String) :
    (store.Has netIds → ∃ r, selectedNetInstanceEndpoints store netIds = .ok r ∧
      ∀ k ∈ netIds, ∃ d owners, .object d ∈ records ∧ get "id" d = some (.text k) ∧
        get k r = some owners ∧ owners.toJson = ownersOf d) ∧
    (¬ store.Has netIds → ∃ e, selectedNetInstanceEndpoints store netIds = .error e) := by
  choose record owners he using exists_expected hs h
  obtain ⟨hfl, hnd⟩ := nodup_batches netIds
  obtain ⟨r, hfd, hg⟩ := foldlM_batches
    (fun batch _ hnn => ownersBatch hs he batch hnn) _ [] hnd fun _ _ => rfl
  rw [hfl] at hg
  have hr : selectedNetInstanceEndpoints store netIds =
      (do requireFound (sortedSet netIds) r; return r) := by
    rw [selectedNetInstanceEndpoints, hfd]
    rfl
  have hf : ∀ k ∈ netIds, get k r = owners k := fun k hk => by
    rw [hg, if_pos (mem_sortedSet.mpr hk)]
  obtain ⟨hok, her⟩ := requireFound_spec hf (fun k hk => by
      obtain ⟨net, hn, hid⟩ := hk
      obtain ⟨d, o, -, -, ho⟩ := (he k).present net hn hid
      rw [ho]
      exact Option.some_ne_none o)
    fun k hno => ((he k).absent fun net hn hid => hno ⟨net, hn, hid⟩).2
  rw [hr]
  refine ⟨fun hh => ⟨r, hok hh, fun k hk => ?_⟩, her⟩
  obtain ⟨net, hn, hid⟩ := hh k hk
  obtain ⟨d, o, ha, -, ho⟩ := (he k).present net hn hid
  exact ⟨d, o, ha.yielded, ha.id, by rw [hf k hk, ho], ha.same⟩

theorem selectedNetRecords_spec (hs : store.Sound) (h : store.allNets = .ok records)
    (netIds : List String) :
    (store.Has netIds → ∃ result, selectedNetRecords store netIds = .ok result ∧
      ∀ k ∈ netIds, ∃ d, .object d ∈ records ∧ get "id" d = some (.text k) ∧
        get k result = some (without ["aliases"] d)) ∧
    (¬ store.Has netIds → ∃ e, selectedNetRecords store netIds = .error e) := by
  choose record owners he using exists_expected hs h
  obtain ⟨hfl, hnd⟩ := nodup_batches netIds
  have hst : ∀ (batch : List String) (result : List (String × Dict)),
      (∀ k ∈ batch, get k result = none) → ∃ result', (do
        let result ← (selectedRows store batch).foldlM
          (setStep (fun row : NetView => identifier row.id) fun _ row => selectedNet row) result
        (endpointRows store batch).foldlM (setStep SelectedEndpoint.id endpointStep) result) =
          .ok result' ∧ ∀ k, get k result' = if k ∈ batch then record k else get k result := by
    intro batch result hnn
    obtain ⟨mid, result', hm, hl, hg⟩ := recordsBatch hs he batch hnn
    exact ⟨result', by rw [hm]; exact hl, hg⟩
  obtain ⟨result, hfd, hg⟩ := foldlM_batches hst _ [] hnd fun _ _ => rfl
  rw [hfl] at hg
  have hr : selectedNetRecords store netIds =
      (do requireFound (sortedSet netIds) result; return result) := by
    rw [selectedNetRecords, hfd]
    rfl
  have hf : ∀ k ∈ netIds, get k result = record k := fun k hk => by
    rw [hg, if_pos (mem_sortedSet.mpr hk)]
  obtain ⟨hok, her⟩ := requireFound_spec hf (fun k hk => by
      obtain ⟨net, hn, hid⟩ := hk
      obtain ⟨d, o, -, hd, -⟩ := (he k).present net hn hid
      rw [hd]
      exact Option.some_ne_none _)
    fun k hno => ((he k).absent fun net hn hid => hno ⟨net, hn, hid⟩).1
  rw [hr]
  refine ⟨fun hh => ⟨result, hok hh, fun k hk => ?_⟩, her⟩
  obtain ⟨net, hn, hid⟩ := hh k hk
  obtain ⟨d, o, ha, hd, -⟩ := (he k).present net hn hid
  exact ⟨d, ha.yielded, ha.id, by rw [hf k hk, hd]⟩

/-! ## agreement -/

theorem aliases_of_mem (hs : store.Sound) (h : store.allNets = .ok records) {d : Dict}
    (hd : .object d ∈ records) : (get "aliases" d).isSome = true := by
  obtain ⟨net, hn, hc⟩ := (of_allNets hs h).2.2 _ hd
  obtain ⟨more, hm, has, hcl⟩ := hs.netExtras net hn
  obtain ⟨d', base, hsm, -, -, ha, -⟩ :=
    selectedNet_of_compactNet "" hm has hcl hc
  cases hsm
  rw [ha]
  rfl

structure AgreesWithFull (store : CompactStore) (records : List Json) (netIds : List String) :
    Prop where
  recordsAgree : ∀ result, selectedNetRecords store netIds = .ok result → ∀ k ∈ netIds,
    ∃ d, .object d ∈ records ∧ get "id" d = some (.text k) ∧ get k result = some d
  ownersAgree : ∀ result, selectedNetInstanceEndpoints store netIds = .ok result → ∀ k ∈ netIds,
    ∃ d owners, .object d ∈ records ∧ get "id" d = some (.text k) ∧
      get k result = some owners ∧ owners.toJson = ownersOf d
  recordsRaise : (∃ e, selectedNetRecords store netIds = .error e) ↔ ¬ store.Has netIds
  ownersRaise : (∃ e, selectedNetInstanceEndpoints store netIds = .error e) ↔ ¬ store.Has netIds

/-- The selective readers agree with the full reader when no net is asked for, or one is missing;
otherwise the records have lost their aliases. -/
theorem agreesWithFull_iff (hs : store.Sound) (h : store.allNets = .ok records)
    (netIds : List String) :
    AgreesWithFull store records netIds ↔ netIds = [] ∨ ¬ store.Has netIds := by
  obtain ⟨hrecords, hrecordsRaise⟩ := selectedNetRecords_spec hs h netIds
  obtain ⟨howners, hownersRaise⟩ := selectedNetInstanceEndpoints_spec hs h netIds
  refine ⟨fun hagrees => ?_, fun hcase => ⟨fun result hrun k hk => ?_, fun result hrun => ?_,
    ⟨?_, hrecordsRaise⟩, ⟨?_, hownersRaise⟩⟩⟩
  · by_contra hcase
    obtain ⟨hne, hhas⟩ := not_or.mp hcase
    obtain ⟨k, hk⟩ := List.exists_mem_of_ne_nil netIds hne
    obtain ⟨result, hrun, hget⟩ := hrecords (not_not.mp hhas)
    obtain ⟨d, -, -, hd⟩ := hget k hk
    obtain ⟨d', hmem, -, hd'⟩ := hagrees.recordsAgree result hrun k hk
    have haliases := aliases_of_mem hs h hmem
    rw [Option.some.inj (hd'.symm.trans hd), get_without] at haliases
    simp at haliases
  · rcases hcase with rfl | hmissing
    · cases hk
    · obtain ⟨e, he⟩ := hrecordsRaise hmissing
      rw [he] at hrun
      cases hrun
  · by_cases hhas : store.Has netIds
    · obtain ⟨result', hrun', hget⟩ := howners hhas
      obtain rfl := ok.inj (hrun'.symm.trans hrun)
      exact hget
    · obtain ⟨e, he⟩ := hownersRaise hhas
      rw [he] at hrun
      cases hrun
  · rintro ⟨e, he⟩ hhas
    obtain ⟨result, hrun, -⟩ := hrecords hhas
    rw [he] at hrun
    cases hrun
  · rintro ⟨e, he⟩ hhas
    obtain ⟨result, hrun, -⟩ := howners hhas
    rw [he] at hrun
    cases hrun

/-- A net that a LUT drives, without aliases; its sink is a top-level port. -/
def bareStore : CompactStore where
  metadata := { logicalSchema := .text emuirSchema, designJson := json (.object []),
                warningsJson := json (.array []) }
  payloads := [json (.object [("lut", .int 1)]), json (.array []), json (.object [])]
  cells := [{ seq := 0, id := .text "i", name := .null, flags := 1, type := .text "LUT1",
              resourcesSeq := 1, parametersSeq := none, attributesSeq := none, constantsSeq := 2,
              extrasSeq := 3 }]
  nets := [{ seq := 0, id := .text "n", name := .null, flags := 1, yosysBit := .null,
             busIndex := .null, fanout := .integer 1, cutClass := .text "combinational",
             extrasSeq := 3 }]
  pinNames := [.text "O", .text "p"]
  endpoints := [
    { netSeq := 0, role := 0, ordinal := 0, instanceSeq := some 0, portSeq := 1,
      bit := .integer 0, extrasSeq := 3 },
    { netSeq := 0, role := 1, ordinal := 0, instanceSeq := none, portSeq := 2, bit := .integer 0,
      extrasSeq := 3 }]
  aliases := []
  ports := []
  clocks := []

def bareNet : Dict :=
  [("aliases", .array []), ("cut_class", .text "combinational"),
    ("drivers", .array [.object [("bit", .int 0), ("instance", .text "i"), ("port", .text "O")]]),
    ("fanout", .int 1), ("id", .text "n"), ("name", .text "n"),
    ("sinks", .array [.object [("bit", .int 0), ("instance", .null), ("port", .text "p")]])]

theorem bareStore_sound : bareStore.Sound where
  netSeqs := by decide
  netIds := by decide
  netText := by simp [bareStore]
  cellText := by simp [bareStore]
  endpointKeys := by decide
  pins := by decide
  netExtras := by
    simp only [bareStore, List.mem_singleton, forall_eq]
    exact ⟨[], rfl, ascending_nil, fun _ _ => rfl⟩
  endpointExtras := by
    simp only [bareStore, List.mem_cons, List.not_mem_nil, or_false, forall_eq_or_imp, forall_eq]
    exact ⟨⟨[], rfl, ascending_nil, fun _ _ => rfl⟩, ⟨[], rfl, ascending_nil, fun _ _ => rfl⟩⟩

theorem bareStore_allNets : bareStore.allNets = .ok [.object bareNet] := by
  rfl

theorem agreesWithFull_iff_bareStore :
    (AgreesWithFull bareStore [.object bareNet] ["m"] ↔ ["m"] = [] ∨ ¬ bareStore.Has ["m"]) ∧
      (AgreesWithFull bareStore [.object bareNet] ["n"] ↔ ["n"] = [] ∨ ¬ bareStore.Has ["n"]) :=
  ⟨agreesWithFull_iff bareStore_sound bareStore_allNets ["m"],
    agreesWithFull_iff bareStore_sound bareStore_allNets ["n"]⟩

/-- The record of the selected net has no aliases, not even an empty list. -/
theorem bareStore_not_agreesWithFull : bareStore.Sound ∧ bareStore.allNets = .ok [.object bareNet] ∧
      ¬ AgreesWithFull bareStore [.object bareNet] ["n"] := by
  refine ⟨bareStore_sound, bareStore_allNets, fun hagrees => ?_⟩
  have hrun : selectedNetRecords bareStore ["n"] =
      .ok [("n", without ["aliases"] bareNet)] := by rfl
  obtain ⟨d, hmem, -, hget⟩ := hagrees.recordsAgree _ hrun "n" List.mem_cons_self
  have hsame : d = without ["aliases"] bareNet := by
    rw [get_cons, if_pos rfl] at hget
    exact (Option.some.inj hget).symm
  have hfull : d = bareNet := Json.object.inj (List.mem_singleton.mp hmem)
  have hne : without ["aliases"] bareNet ≠ bareNet := by decide
  exact hne (hsame.symm.trans hfull)

end EmuFlow.Storage
