import EmuFlow.RouteChecker.Nets

/-!
# The trees of routed nets

The nodes that the checker takes are connected: a node that is met for the first time has an edge
from one that has been listed. They make a tree when a node that has been listed is only entered
again by the edge that has entered it before, which the checker does not ask.
-/

namespace EmuFlow.RouteChecker

open Check List

variable {graph : RrGraph} {file : RouteFile} {s : CheckState} {records l : List ParsedNode}
  {a b first : ParsedNode}

def routeSteps : List ParsedNode → List Edge
  | a :: b :: rest => (if a.type = "SINK" then [] else [routeEdge a b]) ++ routeSteps (b :: rest)
  | _ => []

theorem routeSteps_concat : ∀ l : List ParsedNode, routeSteps (l ++ [a] ++ [b]) =
    routeSteps (l ++ [a]) ++ if a.type = "SINK" then [] else [routeEdge a b]
  | [] => by simp [routeSteps]
  | [c] => by simp [routeSteps]
  | c :: d :: l => by
    have ih := routeSteps_concat (d :: l)
    simp only [cons_append] at ih ⊢
    rw [routeSteps, routeSteps, ih, append_assoc]

theorem mem_routeSteps_append {e : Edge} (he : e ∈ routeSteps l) (m : List ParsedNode) :
    e ∈ routeSteps (l ++ m) := by
  induction m using reverseRecOn with
  | nil =>
    rw [append_nil]
    exact he
  | append_singleton m c ih =>
    rcases eq_nil_or_concat (l ++ m) with hn | ⟨l', d, hl⟩
    · rw [(append_eq_nil_iff.mp hn).1] at he
      cases he
    · rw [← append_assoc]
      rw [hl, concat_eq_append] at ih ⊢
      rw [routeSteps_concat]
      exact mem_append_left _ ih

/-- The nodes of a net are those of a tree whose edges are in the graph; every sink is entered by
one of them where it is listed. -/
structure RoutedTree (graph : RrGraph) (records : List ParsedNode) : Prop where
  tree : ∃ first rest, records = first :: rest ∧ first.type = "SOURCE" ∧
    Arborescence Edge.src Edge.sink first.id (records.map ParsedNode.id) (routeSteps records)
  edges : ∀ edge ∈ routeSteps records, edge ∈ graph.edges
  sinks : ∀ before b after, records = before ++ b :: after → b.type = "SINK" →
    ∃ before' a, before = before' ++ [a] ∧ a.type ≠ "SINK" ∧ routeEdge a b ∈ graph.edges

/-- A node that has been listed is only entered again by an edge of the route so far, and no branch
restarts at a sink. -/
structure NoReentry (records : List ParsedNode) : Prop where
  repeated : ∀ before a b after, records = before ++ a :: b :: after → a.type ≠ "SINK" →
    b.id ∈ (before ++ [a]).map ParsedNode.id → routeEdge a b ∈ routeSteps (before ++ [a])
  restarts : ∀ before a b after, records = before ++ a :: b :: after → a.type = "SINK" →
    b.type ≠ "SINK"

/-- No node is used by more nets than it has room for, and the routed nets are trees. -/
def RoutesSound (graph : RrGraph) (file : RouteFile) : Prop :=
  (∀ net ∈ (splitNets file.lines).2, net.IsRouted → RoutedTree graph (recordsOf net.body)) ∧
    ∀ v rr, graph.nodes[v]? = some rr → usage (splitNets file.lines).2 v ≤ rr.capacity

/-! ## listed nodes -/

theorem concat_inj {c d : ParsedNode} {m : List ParsedNode} (h : l ++ [c] = m ++ [d]) :
    l = m ∧ c = d := by
  obtain ⟨hl, hc⟩ := append_inj' h rfl
  exact ⟨hl, singleton_injective hc⟩

theorem Listed.take (h : Listed graph records) {m : List ParsedNode} :
    ∀ {l}, records = l ++ m → Listed graph l := by
  induction m using reverseRecOn generalizing records with
  | nil =>
    intro l heq
    rw [append_nil] at heq
    exact heq ▸ h
  | append_singleton m c ih =>
    intro l heq
    rw [← append_assoc] at heq
    refine ih ?_ rfl
    cases h with
    | nil => exact absurd heq.symm (by simp)
    | source hs =>
      rename_i routed
      obtain ⟨hl, -⟩ := concat_inj (show [] ++ [routed] = l ++ m ++ [c] from heq)
      rw [← hl]
      exact .nil
    | restart hb _ _ =>
      obtain ⟨hl, -⟩ := concat_inj heq
      exact hl ▸ hb
    | edge hb _ _ _ =>
      obtain ⟨hl, -⟩ := concat_inj heq
      exact hl ▸ hb

theorem Listed.type_first (h : Listed graph records) {rest : List ParsedNode}
    (heq : records = first :: rest) : first.type = "SOURCE" := by
  have hf := h.take (l := [first]) (m := rest) heq
  generalize ho : [first] = one at hf
  cases hf with
  | nil => cases ho
  | source hs =>
    rw [singleton_injective ho]
    exact hs
  | restart _ _ _ =>
    have hl := congrArg List.length ho
    simp at hl
  | edge _ _ _ _ =>
    have hl := congrArg List.length ho
    simp at hl

theorem Listed.edges (h : Listed graph records) : ∀ edge ∈ routeSteps records,
    edge ∈ graph.edges := by
  induction h with
  | nil => simp [routeSteps]
  | source _ => simp [routeSteps]
  | restart _ hs _ ih =>
    rw [routeSteps_concat, if_pos hs, append_nil]
    exact ih
  | edge _ hs _ hed ih =>
    rw [routeSteps_concat, if_neg hs]
    intro e he
    rcases List.mem_append.mp he with he | he
    · exact ih e he
    · rw [mem_singleton.mp he]
      exact hed

theorem cons_of_concat {rest : List ParsedNode} (h : l ++ [a] ++ [b] = first :: rest) :
    ∃ rest', l ++ [a] = first :: rest' := by
  cases l with
  | nil => exact ⟨[], by rw [← (List.cons.inj h).1]; rfl⟩
  | cons c l => exact ⟨l ++ [a], by rw [← (List.cons.inj h).1]; rfl⟩

theorem Listed.entered (h : Listed graph records) : ∀ {rest}, records = first :: rest →
    ∀ v ∈ records.map ParsedNode.id, v = first.id ∨ ∃ e ∈ routeSteps records, e.sink = v := by
  induction h with
  | nil =>
    intro rest heq
    cases heq
  | source _ =>
    intro rest heq v hv
    obtain ⟨rfl, -⟩ := List.cons.inj heq
    exact .inl (mem_singleton.mp hv)
  | @restart records a b _ hs hm ih =>
    intro rest heq v hv
    rw [routeSteps_concat, if_pos hs, append_nil]
    obtain ⟨rest', hr⟩ := cons_of_concat heq
    refine ih hr v ?_
    rw [map_append, List.mem_append] at hv
    rcases hv with hv | hv
    · exact hv
    · rw [mem_singleton.mp hv]
      exact hm
  | @edge records a b _ hs _ _ ih =>
    intro rest heq v hv
    rw [routeSteps_concat, if_neg hs]
    obtain ⟨rest', hr⟩ := cons_of_concat heq
    rw [map_append, List.mem_append] at hv
    rcases hv with hv | hv
    · rcases ih hr v hv with hrt | ⟨e, he, hsn⟩
      · exact .inl hrt
      · exact .inr ⟨e, mem_append_left _ he, hsn⟩
    · refine .inr ⟨routeEdge a b, mem_append_right _ (mem_singleton_self _), ?_⟩
      rw [mem_singleton.mp hv]
      rfl

theorem arborescence_of_listed (h : Listed graph records) : ∀ {rest}, records = first :: rest →
    (∀ before a b after, records = before ++ a :: b :: after → a.type ≠ "SINK" →
      b.id ∈ (before ++ [a]).map ParsedNode.id → routeEdge a b ∈ routeSteps (before ++ [a])) →
      Arborescence Edge.src Edge.sink first.id (records.map ParsedNode.id)
        (routeSteps records) := by
  induction h with
  | nil =>
    intro rest heq
    cases heq
  | source _ =>
    intro rest heq _
    obtain ⟨rfl, -⟩ := List.cons.inj heq
    exact .single
  | @restart records a b _ hs hm ih =>
    intro rest heq hr
    obtain ⟨rest', hrs⟩ := cons_of_concat heq
    have ht := ih hrs fun before c d after hsp => hr before c d (after ++ [b])
      (by rw [hsp]; simp)
    rw [routeSteps_concat, if_pos hs, append_nil]
    refine ht.congr (fun v => ?_) fun _ => Iff.rfl
    rw [map_append, List.mem_append, map_singleton, mem_singleton]
    constructor
    · rintro (hv | rfl)
      · exact hv
      · exact hm
    · exact .inl
  | @edge records a b _ hs _ _ ih =>
    intro rest heq hr
    obtain ⟨rest', hrs⟩ := cons_of_concat heq
    have ht := ih hrs fun before c d after hsp => hr before c d (after ++ [b])
      (by rw [hsp]; simp)
    rw [routeSteps_concat, if_neg hs, map_append, map_singleton]
    by_cases hm : b.id ∈ (records ++ [a]).map ParsedNode.id
    · -- the edge has been there
      have hed := hr records a b [] (by simp) hs hm
      refine ht.congr (fun v => ?_) fun e => ?_
      · rw [List.mem_append, mem_singleton]
        constructor
        · rintro (hv | rfl)
          · exact hv
          · exact hm
        · exact .inl
      · rw [List.mem_append, mem_singleton]
        constructor
        · rintro (he | rfl)
          · exact he
          · exact hed
        · exact .inl
    · exact ht.leaf (e := routeEdge a b)
        (mem_map_of_mem (mem_append_right _ (mem_singleton_self a))) hm

theorem routedTree_iff (h : Listed graph records) (hne : records ≠ []) :
    RoutedTree graph records ↔ NoReentry records := by
  obtain ⟨first, rest, rfl⟩ := exists_cons_of_ne_nil hne
  constructor
  · rintro ⟨⟨root, rest', heq, -, htr⟩, -, hsk⟩
    obtain ⟨rfl, rfl⟩ := List.cons.inj heq
    refine ⟨fun before a b after hsp hsn hmm => ?_, fun before a b after hsp hsn hb => ?_⟩
    · have hct : first :: rest = before ++ [a] ++ (b :: after) := by
        rw [hsp, append_assoc, singleton_append]
      have hst : routeEdge a b ∈ routeSteps (first :: rest) := by
        have hls : routeEdge a b ∈ routeSteps (before ++ [a] ++ [b]) := by
          rw [routeSteps_concat, if_neg hsn]
          exact mem_append_right _ (mem_singleton_self _)
        have hal := mem_routeSteps_append hls after
        rwa [append_assoc, singleton_append, ← hct] at hal
      obtain ⟨rest'', hfr⟩ : ∃ rest'', before ++ [a] = first :: rest'' := by
        cases before with
        | nil => exact ⟨[], by rw [(List.cons.inj hsp).1]; rfl⟩
        | cons c before => exact ⟨before ++ [a], by rw [(List.cons.inj hsp).1]; rfl⟩
      rcases (h.take hct).entered hfr b.id hmm with hrt | ⟨e, he, hen⟩
      · exact absurd hrt (htr.root_free _ hst)
      · have hal : e ∈ routeSteps (first :: rest) := by
          rw [hct]
          exact mem_routeSteps_append he _
        rw [htr.unique _ hst e hal hen.symm]
        exact he
    · obtain ⟨before', c, hbf, hc, -⟩ := hsk (before ++ [a]) b after
        (by rw [hsp]; simp) hb
      obtain ⟨-, rfl⟩ := concat_inj hbf
      exact hc hsn
  · rintro ⟨hrp, hrs⟩
    refine ⟨⟨first, rest, rfl, h.type_first rfl, arborescence_of_listed h rfl hrp⟩, h.edges,
      fun before b after hsp hb => ?_⟩
    rcases eq_nil_or_concat before with rfl | ⟨before', a, rfl⟩
    · have hsr : b.type = "SOURCE" := h.type_first hsp
      rw [hb] at hsr
      simp at hsr
    · rw [concat_eq_append] at hsp ⊢
      have hsn : a.type ≠ "SINK" := fun ha =>
        hrs before' a b after (by rw [hsp]; simp) ha hb
      refine ⟨before', a, rfl, hsn, h.edges _ ?_⟩
      have hls : routeEdge a b ∈ routeSteps (before' ++ [a] ++ [b]) := by
        rw [routeSteps_concat, if_neg hsn]
        exact mem_append_right _ (mem_singleton_self _)
      have hal := mem_routeSteps_append hls after
      rwa [append_assoc, singleton_append, ← hsp] at hal

theorem listed_of_checkRoute (h : checkRoute graph file = .ok s) {net : NetLines}
    (hne : net ∈ (splitNets file.lines).2) (hrt : net.IsRouted) :
    Listed graph (recordsOf net.body) ∧ recordsOf net.body ≠ [] := by
  obtain ⟨-, h⟩ := raiseIf_bind.mp h
  obtain ⟨-, h⟩ := raiseIf_bind.mp h
  obtain ⟨last, hls, h⟩ := bind_eq_ok.mp h
  obtain ⟨finished, hfn, -⟩ := bind_eq_ok.mp h
  obtain ⟨hln, -, hbd⟩ := splitNets_spec file.lines
  obtain ⟨pre, post, hnt⟩ := append_of_mem hne
  rw [hln, hnt, flatMap_append, flatMap_cons, ← append_assoc, foldlM_append] at hls
  obtain ⟨before, hbf, hls⟩ := bind_eq_ok.mp hls
  rw [cons_append, foldlM_cons] at hls
  obtain ⟨opened, hon, hls⟩ := bind_eq_ok.mp hls
  rw [foldlM_append] at hls
  obtain ⟨listed, hld, hls⟩ := bind_eq_ok.mp hls
  have hid : ∀ {m : List RouteLine} {t t' : CheckState}, Idle t →
      m.foldlM (checkLine graph) t = .ok t' → Idle t' := by
    intro m t t' ht hrn
    exact foldlM_invariant Idle (fun _ _ _ _ hid hsp => hid.step hsp) ht hrn
  have hid₀ : Idle before := hid (fun _ => ⟨rfl, rfl⟩) hbf
  obtain ⟨hnd, hpr, -, hcr, -⟩ := checkLine_header hon hid₀
  have hst : Listing graph [] opened := by
    refine ⟨⟨_, hcr, hrt.1, rfl, rfl⟩, fun v => ?_, hpr, .nil⟩
    rw [hnd]
    exact Iff.rfl
  have hlt := hst.run (hbd net hne) hrt.2 hld
  rw [nil_append] at hlt
  refine ⟨hlt.listed, fun hnl => ?_⟩
  obtain ⟨current, hcr', hgl, hlc, hcn⟩ := hlt.current
  -- the next header, or the end of the file, asks for nodes
  have has : finishedNet current listed.previous = .ok () := by
    have hid₁ := hid (hid₀.step hon) hld
    cases post with
    | nil =>
      cases hls
      exact (finishNet_spec hfn hid₁).2.2.2 current hcr'
    | cons next post =>
      rw [flatMap_cons, cons_append, foldlM_cons] at hls
      obtain ⟨after, haf, -⟩ := bind_eq_ok.mp hls
      exact (checkLine_header haf hid₁).2.2.2.2 current hcr'
  unfold finishedNet at has
  rw [if_pos ⟨hgl, hlc⟩] at has
  obtain ⟨hzr, -⟩ := raiseIf_bind.mp has
  rw [hnl] at hcn
  exact hzr hcn

/-- **The routes of an accepted file are sound exactly when no routed net enters a node by a second
edge or restarts a branch at a sink.** -/
theorem checkedRoutes_sound_iff (h : checkRoute graph file = .ok s) : RoutesSound graph file ↔
      ∀ net ∈ (splitNets file.lines).2, net.IsRouted → NoReentry (recordsOf net.body) := by
  constructor
  · rintro ⟨htrees, -⟩ net hnet hrouted
    obtain ⟨hlisted, hne⟩ := listed_of_checkRoute h hnet hrouted
    exact (routedTree_iff hlisted hne).mp (htrees net hnet hrouted)
  · intro hnets
    refine ⟨fun net hnet hrouted => ?_, fun v rr hrr => usage_le_capacity h hrr⟩
    obtain ⟨hlisted, hne⟩ := listed_of_checkRoute h hnet hrouted
    exact (routedTree_iff hlisted hne).mpr (hnets net hnet hrouted)

/-! ## a reconvergence -/

def exampleNode (type : String) : RrNode where
  capacity := 1
  type := type
  xlow := 0
  ylow := 0
  xhigh := 0
  yhigh := 0
  layerLow := 0
  layerHigh := 0
  ptc := 0

def exampleGraph : RrGraph where
  nodes := [exampleNode "SOURCE", exampleNode "CHANX", exampleNode "SINK", exampleNode "CHANY",
    exampleNode "SINK"]
  edges := [⟨0, 1, 0⟩, ⟨1, 2, 0⟩, ⟨0, 3, 0⟩, ⟨3, 1, 0⟩, ⟨1, 4, 0⟩]
  gridWidth := 1
  gridHeight := 1

def exampleRecord (id : ℕ) (type : String) (sw pin : ℤ) : ParsedNode where
  id := id
  type := type
  xlow := 0
  ylow := 0
  layerLow := 0
  xhigh := 0
  yhigh := 0
  layerHigh := 0
  ptc := 0
  sw := sw
  netPinIndex := pin

def exampleFile (records : List ParsedNode) : RouteFile where
  placementFile := "p.place"
  placementId := "0"
  width := 1
  height := 1
  lines := .blank :: .net 0 "n" false :: records.map .node

def reconvergent : RouteFile := exampleFile [exampleRecord 0 "SOURCE" 0 (-1),
  exampleRecord 1 "CHANX" 0 (-1), exampleRecord 2 "SINK" (-1) 0, exampleRecord 0 "SOURCE" 0 (-1),
  exampleRecord 3 "CHANY" 0 (-1), exampleRecord 1 "CHANX" 0 (-1), exampleRecord 4 "SINK" (-1) 1]

theorem reconvergent_not_sound :
    (∃ s, checkRoute exampleGraph reconvergent = .ok s) ∧
      ¬ RoutesSound exampleGraph reconvergent := by
  refine ⟨exists_of_isOk (by decide +kernel), fun hsound => ?_⟩
  obtain ⟨⟨first, rest, -, -, htree⟩, -, -⟩ := hsound.1 _ mem_cons_self ⟨rfl, by decide⟩
  have heq := htree.unique ⟨0, 1, 0⟩ (by decide +kernel) ⟨3, 1, 0⟩ (by decide +kernel) rfl
  exact absurd heq (by decide)

/-- The second branch starts at the node the first one has gone through. -/
def branched : RouteFile := exampleFile [exampleRecord 0 "SOURCE" 0 (-1),
  exampleRecord 1 "CHANX" 0 (-1), exampleRecord 2 "SINK" (-1) 0, exampleRecord 1 "CHANX" 0 (-1),
  exampleRecord 4 "SINK" (-1) 1]

theorem checkedRoutes_sound_iff_branched : RoutesSound exampleGraph branched := by
  obtain ⟨s, hs⟩ := exists_of_isOk
    (show (checkRoute exampleGraph branched).isOk = true by decide +kernel)
  refine (checkedRoutes_sound_iff hs).mpr fun net hn _ => ?_
  obtain rfl := mem_singleton.mp hn
  constructor
  all_goals
    intro before a b after hr
    rcases before with _ | ⟨x, _ | ⟨y, _ | ⟨z, _ | ⟨last, rest⟩⟩⟩⟩
    on_goal 5 =>
      have hl := congrArg length hr
      simp only [cons_append, length_cons, length_append] at hl
      change 5 = _ at hl
      omega
    all_goals
      cases hr
      decide +kernel

end EmuFlow.RouteChecker
