import EmuFlow.RerouteBatches.Native

/-!
# The reconstructed conflict batches

`build_route_refinement_batches` of `emuflow/routing_batches.py` over the candidate pool that
`route_system_native` of `emuflow/timing_routing.py` writes, and the cross-check of the two batch
counts.
-/

namespace EmuFlow.RerouteBatches

open Check SortedSet Routing ConflictBatches List

/-! ## the candidate pool -/

/-- `ROUTE_CANDIDATE_GENERATORS`; all but the last are the master generators. -/
inductive PoolGenerator where
  | master (g : CandidateGenerator)
  | refinedFinal
  deriving DecidableEq

/-- An entry of `candidates`. -/
structure PoolCandidate where
  demandId : String
  generator : PoolGenerator
  transportRound : Option Int
  treeEdges : List TreeEdge

structure CandidatePool where
  constraints : RouteConstraints
  candidates : List PoolCandidate

def treeEdgesOf (model : NativeModel) (route : List Nat) : List TreeEdge :=
  route.filterMap fun index => (model.arcKeys[index]?).map fun key =>
    { link := key.2.1, source := key.2.2.1, sink := key.2.2.2 }

def poolCandidate (model : NativeModel) (demand : Demand) (generator : PoolGenerator)
    (route : List Nat) : PoolCandidate :=
  { demandId := demand.id
    generator := generator
    transportRound := demand.transportRound
    treeEdges := treeEdgesOf model route }

/-- The candidates of one demand: `write_candidate_routes` leaves out generators without routes. -/
def demandCandidates (model : NativeModel) (columns : Columns model) (item : Demand × Nat) :
    List PoolCandidate :=
  (CandidateGenerator.all.filterMap fun g =>
    if columns.generated g ∧ (columns.routes g).length = model.demands.length then
      some (poolCandidate model item.1 (.master g) ((columns.routes g).getD item.2 []))
    else none) ++ [poolCandidate model item.1 .refinedFinal (columns.final.getD item.2 [])]

/-- The pool `route_system_native` writes. -/
def writtenPool (model : NativeModel) (constraints : RouteConstraints) (columns : Columns model) :
    CandidatePool :=
  { constraints := constraints
    candidates := model.demands.zipIdx.flatMap (demandCandidates model columns) }

/-- `f"{key}@transport-round-{round}"`. -/
def domainLabel (key : String) (round : Int) : String :=
  key ++ "@transport-round-" ++ toString round

def edgeLabels (graph : DirectedGraph) (round : Int) (edge : TreeEdge) : Result (List String) := do
  let arc ← lookupOrRaise edge.link (graph.findArc edge.key)
  return (graphArcKeys arc).map fun key => domainLabel key round

def candidateDomains (demands : List Demand) (graph : DirectedGraph) (candidate : PoolCandidate) :
    Result (Nat × List String) := do
  raiseIf (candidate.demandId ∉ demands.map Demand.id) (.keyError candidate.demandId)
  let labels ← candidate.treeEdges.mapM
    (edgeLabels graph (candidate.transportRound.getD 0))
  return ((demands.map Demand.id).idxOf candidate.demandId, labels.flatten)

/-- `domains_by_demand`: what every master candidate adds to the set of its demand. -/
def domainsByDemand (demands : List Demand) (graph : DirectedGraph) (pool : CandidatePool) :
    Result (List (Nat × List String)) :=
  (pool.candidates.filter fun candidate => candidate.generator ≠ .refinedFinal).mapM
    (candidateDomains demands graph)

def labelsOf (domains : List (Nat × List String)) (demand : Nat) : List String :=
  (domains.filter fun entry => entry.1 = demand).flatMap Prod.snd

/-! ## the batches -/

/-- `path_demands[path_index]`. -/
def pathDemands (demands : List Demand) (path : StaPath) : Result (List Nat) := do
  let selected ← path.cutNets.mapM (demandIndex demands)
  return sortedSet selected

/-- The record of a path: `capacity_domains` and `affected_paths`. -/
def batchRecord (domains : List (Nat × List String)) (demandsOf : List (List Nat)) (path : Nat) :
    Task Nat (String ⊕ Nat) :=
  let selected := demandsOf.getD path []
  { id := path
    uses := (sortedSet (selected.flatMap (labelsOf domains))).map Sum.inl ++
      (sortedSet (selected.flatMap (pathsByDemand demandsOf))).map Sum.inr }

def nativeSlack (timingPaths : StaPaths) (id : String) : ℚ :=
  ((Keyed.find StaPath.id timingPaths.paths.reverse id).map fun path =>
    TdmRatio.normalizedSlack path.clockPeriodNs path.slackNs timingPaths.normalization).getD 0

def recordSlack (timingPaths : StaPaths) (path : Nat) : ℚ :=
  ((timingPaths.paths[path]?).map fun item => nativeSlack timingPaths item.id).getD 0

/-- The sort key `(native_slack[path], path_index)`. -/
def recordKey (timingPaths : StaPaths) (record : Task Nat (String ⊕ Nat)) : ℚ ×ₗ Nat :=
  lex (recordSlack timingPaths record.id) record.id

/-- The result: the batches as path positions, their number and the largest size. -/
structure BatchCertificate where
  batches : List (List Nat)
  batchCount : Nat
  maximumParallelBatch : Nat
  deriving DecidableEq

def buildRouteRefinementBatches (assignment : Assignment) (platform : Platform)
    (pool : CandidatePool) (timingPaths : StaPaths) : Result BatchCertificate := do
  let demands ← demandsFromAssignment assignment platform
  let graph ← buildDirectedGraph platform pool.constraints false
  let domains ← domainsByDemand demands graph pool
  let demandsOf ← timingPaths.paths.mapM (pathDemands demands)
  let records := sortedBy (recordKey timingPaths)
    ((List.range demandsOf.length).map (batchRecord domains demandsOf))
  let batches := batchesOf FIRST_FIT_LIMIT records
  return { batches := batchIds batches
           batchCount := batches.length
           maximumParallelBatch := maximumBatch batches }

def checkConflictBatches (native : List (List (Task Nat (Nat ⊕ Nat))))
    (certificate : BatchCertificate) : Result Unit :=
  raiseIf (certificate.batchCount ≠ native.length ∨
      certificate.maximumParallelBatch ≠ maximumBatch native)
    (.emuFlow ("TLR router conflict batches do not match independent reconstruction: " ++
        "native=(%s, %s), independent=(%s, %s)")
      [toString native.length, toString (maximumBatch native), toString certificate.batchCount,
        toString certificate.maximumParallelBatch])

/-! ## labels -/

/-- What stands behind the last `c` tells where it is. -/
theorem append_cons_inj {α : Type} {c : α} {a a' b b' : List α} (hb : c ∉ b) (hb' : c ∉ b')
    (h : a ++ c :: b = a' ++ c :: b') : a = a' ∧ b = b' := by
  rcases append_eq_append_iff.mp h with ⟨as, rfl, hs⟩ | ⟨as, rfl, hs⟩
  · cases as with
    | nil => exact ⟨by simp, by simpa using hs⟩
    | cons x as =>
      obtain ⟨-, rfl⟩ := List.cons.inj hs
      exact absurd (mem_append_right as mem_cons_self) hb
  · cases as with
    | nil => exact ⟨by simp, by simpa using hs.symm⟩
    | cons x as =>
      obtain ⟨-, rfl⟩ := List.cons.inj hs
      exact absurd (mem_append_right as mem_cons_self) hb'

theorem toList_toString (n : Nat) : (toString (n : Int)).toList = Nat.toDigits 10 n := by
  show (toString n).toList = _
  simp

theorem at_notMem_toDigits (n : Nat) : '@' ∉ Nat.toDigits 10 n := by
  intro h
  have hd := Nat.isDigit_of_mem_toDigits (by decide) (by decide) h
  exact absurd hd (by decide)

theorem toDigits_inj {n m : Nat} (h : Nat.toDigits 10 n = Nat.toDigits 10 m) : n = m := by
  rw [← Nat.ofDigitChars_ten_toDigits (n := n), h, Nat.ofDigitChars_ten_toDigits]

theorem domainLabel_inj {key key' : String} {round round' : Int} (hr : 0 ≤ round)
    (hr' : 0 ≤ round') (h : domainLabel key round = domainLabel key' round') :
    key = key' ∧ round = round' := by
  obtain ⟨n, rfl⟩ := Int.eq_ofNat_of_zero_le hr
  obtain ⟨m, rfl⟩ := Int.eq_ofNat_of_zero_le hr'
  have hl := congrArg String.toList h
  simp only [domainLabel, String.toList_append, toList_toString, append_assoc] at hl
  -- the separator starts with the only `@` behind the key
  have hs : "@transport-round-".toList = '@' :: "transport-round-".toList := by decide
  rw [hs, cons_append, cons_append] at hl
  have hf : ∀ k, '@' ∉ "transport-round-".toList ++ Nat.toDigits 10 k := by
    intro k hm
    rcases List.mem_append.mp hm with hm | hm
    · exact absurd hm (by decide)
    · exact at_notMem_toDigits k hm
  obtain ⟨hk, hd⟩ := append_cons_inj (hf n) (hf m) hl
  refine ⟨String.toList_inj.mp hk, ?_⟩
  rw [toDigits_inj (append_cancel_left hd)]

theorem toList_demandId (index : Nat) : ∃ zeros,
    (demandId index).toList = 'd' :: (List.replicate zeros '0' ++ Nat.toDigits 10 index) := by
  refine ⟨6 - (toString index).length, ?_⟩
  have hp : ∀ k, (Nat.repeat (fun s : String => s.push '0') k "").toList =
      List.replicate k '0' := by
    intro k
    induction k with
    | zero => rfl
    | succ k ih => rw [Nat.repeat, String.toList_push, ih, replicate_succ']
  unfold demandId
  simp [String.pushn_eq_repeat_push, hp]

/-- `d{index:06d}` names one position. -/
theorem demandId_inj {index index' : Nat} (h : demandId index = demandId index') :
    index = index' := by
  obtain ⟨zeros, hz⟩ := toList_demandId index
  obtain ⟨zeros', hz'⟩ := toList_demandId index'
  have hl := (hz.symm.trans (congrArg String.toList h)).trans hz'
  have hv := congrArg (fun l => Nat.ofDigitChars 10 l 0) (List.cons.inj hl).2
  simpa [Nat.ofDigitChars_append, Nat.ofDigitChars_replicate_zero,
    Nat.ofDigitChars_ten_toDigits] using hv

theorem demandsFrom_ids {fpgaIds : List String} {contract : Option RouteContract} :
    ∀ {cuts : List CutNet} {index : Nat} {seen : List String} {demands : List Demand},
      demandsFrom fpgaIds contract index seen cuts = .ok demands →
      demands.map Demand.id = (range' index cuts.length).map demandId
  | [], _, _, _, h => by
    rw [← Except.ok.inj h]
    rfl
  | cut :: cuts, index, seen, demands, h => by
    obtain ⟨d, hd, h⟩ := bind_eq_ok.mp h
    obtain ⟨rest, hr, h⟩ := bind_eq_ok.mp h
    cases h
    rw [map_cons, (demandOf_eq_ok hd).1, demandsFrom_ids hr, length_cons, range'_succ, map_cons]

theorem demandIds_nodup {assignment : Assignment} {platform : Platform} {demands : List Demand}
    (h : demandsFromAssignment assignment platform = .ok demands) :
    (demands.map Demand.id).Nodup := by
  obtain ⟨-, h⟩ := raiseIf_bind.mp h
  obtain ⟨-, h⟩ := raiseIf_bind.mp h
  simp only [bind_eq_ok] at h
  obtain ⟨contract, -, ds, hd, h⟩ := h
  cases h
  rw [((sortedBy_perm Demand.net ds).map Demand.id).nodup_iff, demandsFrom_ids hd]
  exact Nodup.map (fun _ _ => demandId_inj) (nodup_range' ..)

end EmuFlow.RerouteBatches
