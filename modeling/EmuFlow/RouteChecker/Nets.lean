import EmuFlow.RouteChecker.Check

/-!
# The nets of a route file

What a run of the checker over the lines of a file has seen of each net, and how often each node has
been used.
-/

namespace EmuFlow.RouteChecker

open Check List Except Function

variable {graph : RrGraph} {file : RouteFile} {s s' : CheckState} {net : RouteNet}
  {routed : ParsedNode} {line : RouteLine} {lines body : List RouteLine}
  {records : List ParsedNode}

/-! ## the lines of a net -/

structure NetLines where
  id : ℕ
  name : String
  global : Bool
  body : List RouteLine

def splitNets : List RouteLine → List RouteLine × List NetLines
  | [] => ([], [])
  | .net id name global :: lines =>
    ([], { id := id, name := name, global := global, body := (splitNets lines).1 } ::
      (splitNets lines).2)
  | line :: lines => (line :: (splitNets lines).1, (splitNets lines).2)

def recordsOf (lines : List RouteLine) : List ParsedNode :=
  lines.filterMap fun line =>
    match line with
    | .node routed => some routed
    | _ => none

def NetLines.IsRouted (net : NetLines) : Prop := net.global = false ∧ .localCluster ∉ net.body

def RouteLine.isHeader : RouteLine → Bool
  | .net _ _ _ => true
  | _ => false

theorem splitNets_cons (h : line.isHeader = false) :
    splitNets (line :: lines) = (line :: (splitNets lines).1, (splitNets lines).2) := by
  cases line with
  | net id name global => cases h
  | _ => rfl

theorem splitNets_spec : ∀ lines : List RouteLine,
    lines = (splitNets lines).1 ++ (splitNets lines).2.flatMap (fun net =>
        .net net.id net.name net.global :: net.body) ∧
      (∀ line ∈ (splitNets lines).1, line.isHeader = false) ∧
        ∀ net ∈ (splitNets lines).2, ∀ line ∈ net.body, line.isHeader = false
  | [] => ⟨rfl, by simp [splitNets], by simp [splitNets]⟩
  | line :: lines => by
    obtain ⟨heq, hf, hn⟩ := splitNets_spec lines
    cases hh : line.isHeader with
    | false =>
      rw [splitNets_cons hh]
      refine ⟨congrArg _ heq, forall_mem_cons.mpr ⟨hh, hf⟩, hn⟩
    | true =>
      cases line with
      | net id name global =>
        refine ⟨congrArg _ heq, fun _ h => absurd h not_mem_nil, ?_⟩
        exact forall_mem_cons.mpr ⟨hf, hn⟩
      | _ => cases hh

def StepAllowed (graph : RrGraph) (nodes : List ℕ) (routed : ParsedNode) :
    Option ParsedNode → Prop
  | none => True
  | some previous => (previous.type = "SINK" → routed.id ∈ nodes) ∧
      (previous.type ≠ "SINK" → 0 ≤ previous.sw ∧ routeEdge previous routed ∈ graph.edges)

theorem checkStep_spec (h : checkStep graph routed s = .ok s') :
    StepAllowed graph s.currentNodes routed s.previous ∧ s'.currentNodes = s.currentNodes ∧
      s'.occupancy = s.occupancy := by
  unfold checkStep at h
  split at h
  · next hp =>
    cases h
    rw [hp]
    exact ⟨trivial, rfl, rfl⟩
  · next previous hp =>
    rw [hp]
    split at h
    · next hs =>
      obtain ⟨hm, h⟩ := raiseIf_bind.mp h
      cases h
      exact ⟨⟨fun _ => not_not.mp hm, fun hne => absurd hs hne⟩, rfl, rfl⟩
    · next hs =>
      simp only [raiseIf_bind] at h
      obtain ⟨hsw, he, h⟩ := h
      cases h
      exact ⟨⟨fun heq => absurd heq hs, fun _ => ⟨not_lt.mp hsw, not_not.mp he⟩⟩, rfl, rfl⟩

/-- What a `Node:` line changes. -/
structure NodeChecked (graph : RrGraph) (net : RouteNet) (routed : ParsedNode)
    (s s' : CheckState) : Prop where
  source : net.nodes = 0 → routed.type = "SOURCE"
  step : StepAllowed graph s.currentNodes routed s.previous
  nodes : ∀ v, v ∈ s'.currentNodes ↔ v ∈ s.currentNodes ∨ v = routed.id
  occupancy : ∀ v, s'.occupancy v =
    s.occupancy v + if v = routed.id ∧ v ∉ s.currentNodes then 1 else 0
  capacity : ∀ v rr, graph.nodes[v]? = some rr → s.occupancy v ≤ rr.capacity →
    s'.occupancy v ≤ rr.capacity
  previous : s'.previous = some routed
  current : ∃ sinks, s'.current = some { net with sinks := sinks, nodes := net.nodes + 1 }

/-- What one record changes. -/
theorem checkNode_spec (h : checkNode graph net routed s = .ok s') :
    NodeChecked graph net routed s s' := by
  unfold checkNode at h
  split at h
  · cases h
  · next rr hr =>
    obtain ⟨_, -, h⟩ := bind_eq_ok.mp h
    obtain ⟨hs, h⟩ := raiseIf_bind.mp h
    simp only [bind_eq_ok] at h
    obtain ⟨stepped, hst, occupied, hoc, pinned, hpn, h⟩ := h
    obtain ⟨hsp, hnd, ho⟩ := checkStep_spec hst
    have hp : (∃ sinks, pinned.1 = { net with sinks := sinks }) ∧
        pinned.2.currentNodes = occupied.currentNodes ∧
          pinned.2.occupancy = occupied.occupancy := by
      unfold checkPinIndex at hpn
      split at hpn
      · simp only [raiseIf_bind] at hpn
        obtain ⟨-, -, hpn⟩ := hpn
        cases hpn
        exact ⟨⟨_, rfl⟩, rfl, rfl⟩
      · obtain ⟨-, hpn⟩ := raiseIf_bind.mp hpn
        cases hpn
        exact ⟨⟨net.sinks, rfl⟩, rfl, rfl⟩
    obtain ⟨⟨sinks, hn⟩, hpd, hpc⟩ := hp
    cases h
    have hf : ∀ v, (v ∈ occupied.currentNodes ↔ v ∈ s.currentNodes ∨ v = routed.id) ∧
        occupied.occupancy v =
            s.occupancy v + (if v = routed.id ∧ v ∉ s.currentNodes then 1 else 0) ∧
          (∀ rr, graph.nodes[v]? = some rr → s.occupancy v ≤ rr.capacity →
            occupied.occupancy v ≤ rr.capacity) := by
      intro v
      unfold occupy at hoc
      rw [hnd, ho] at hoc
      split at hoc
      · next hm =>
        cases hoc
        rw [hnd, ho]
        refine ⟨⟨.inl, ?_⟩, ?_, fun _ _ hle => hle⟩
        · rintro (hv | rfl)
          · exact hv
          · exact hm
        · rw [if_neg, Nat.add_zero]
          rintro ⟨rfl, hv⟩
          exact hv hm
      · next hm =>
        obtain ⟨hc, hoc⟩ := raiseIf_bind.mp hoc
        cases hoc
        refine ⟨by rw [List.mem_append, mem_singleton], ?_, fun rr' hr' hle => ?_⟩
        · show update _ _ _ v = _
          by_cases hv : v = routed.id
          · rw [hv, update_self, if_pos ⟨rfl, hm⟩]
          · rw [update_of_ne hv, if_neg fun hb => hv hb.1, Nat.add_zero]
        · show update s.occupancy routed.id _ v ≤ rr'.capacity
          by_cases hv : v = routed.id
          · subst hv
            rw [update_self]
            rw [hr] at hr'
            rw [← Option.some.inj hr']
            exact not_lt.mp hc
          · rw [update_of_ne hv]
            exact hle
    refine ⟨fun hz => ?_, hsp, fun v => ?_, fun v => ?_, fun v => ?_, rfl, sinks, ?_⟩
    · by_contra hne
      exact hs ⟨hz, hne⟩
    · show v ∈ pinned.2.currentNodes ↔ _
      rw [hpd]
      exact (hf v).1
    · show pinned.2.occupancy v = _
      rw [hpc]
      exact (hf v).2.1
    · intro rr' hr' hle
      show pinned.2.occupancy v ≤ _
      rw [hpc]
      exact (hf v).2.2 rr' hr' hle
    · show some { pinned.1 with nodes := pinned.1.nodes + 1 } = _
      rw [hn]

/-! ## the nodes of a net -/

inductive Listed (graph : RrGraph) : List ParsedNode → Prop
  | nil : Listed graph []
  | source {routed : ParsedNode} : routed.type = "SOURCE" → Listed graph [routed]
  | restart {records : List ParsedNode} {a b : ParsedNode} : Listed graph (records ++ [a]) →
      a.type = "SINK" → b.id ∈ (records ++ [a]).map ParsedNode.id →
        Listed graph (records ++ [a] ++ [b])
  | edge {records : List ParsedNode} {a b : ParsedNode} : Listed graph (records ++ [a]) →
      a.type ≠ "SINK" → 0 ≤ a.sw → routeEdge a b ∈ graph.edges →
        Listed graph (records ++ [a] ++ [b])

/-- The state inside a routed net with the given nodes. -/
structure Listing (graph : RrGraph) (records : List ParsedNode) (s : CheckState) : Prop where
  current : ∃ net, s.current = some net ∧ net.global = false ∧ net.localOnly = false ∧
    net.nodes = records.length
  nodes : ∀ v, v ∈ s.currentNodes ↔ v ∈ records.map ParsedNode.id
  previous : s.previous = records.getLast?
  listed : Listed graph records

theorem Listing.node (h : Listing graph records s)
    (hl : checkLine graph s (.node routed) = .ok s') :
    Listing graph (records ++ [routed]) s' := by
  obtain ⟨net, hcr, hg, hlc, hcn⟩ := h.current
  unfold checkLine at hl
  rw [hcr] at hl
  dsimp only at hl
  rw [hg, if_neg (by simp)] at hl
  have hc := checkNode_spec hl
  obtain ⟨sinks, hn⟩ := hc.current
  refine ⟨⟨_, hn, hg, hlc, by simp [hcn]⟩, fun v => ?_, ?_, ?_⟩
  · rw [hc.nodes, h.nodes, map_append, List.mem_append, map_singleton, mem_singleton]
  · rw [hc.previous, getLast?_concat]
  · rcases eq_nil_or_concat records with rfl | ⟨before, a, rfl⟩
    · exact .source (hc.source hcn)
    · have hst := hc.step
      rw [h.previous, concat_eq_append, getLast?_concat] at hst
      rw [concat_eq_append]
      have hls := h.listed
      rw [concat_eq_append] at hls
      by_cases hs : a.type = "SINK"
      · refine .restart hls hs ?_
        have hm := hst.1 hs
        rwa [h.nodes, concat_eq_append] at hm
      · exact .edge hls hs (hst.2 hs).1 (hst.2 hs).2

theorem Listing.run : ∀ {body : List RouteLine} {records : List ParsedNode} {s : CheckState},
    Listing graph records s → (∀ line ∈ body, line.isHeader = false) → .localCluster ∉ body →
      body.foldlM (checkLine graph) s = .ok s' → Listing graph (records ++ recordsOf body) s'
  | [], records, s, h, _, _, hr => by
    cases hr
    rw [show recordsOf [] = [] from rfl, append_nil]
    exact h
  | line :: body, records, s, h, hh, hl, hr => by
    obtain ⟨hhr, hh'⟩ := forall_mem_cons.mp hh
    have hl' : .localCluster ∉ body := fun hm => hl (mem_cons_of_mem line hm)
    rw [foldlM_cons] at hr
    obtain ⟨next, hn, hlt⟩ := bind_eq_ok.mp hr
    -- a line that is no node leaves the net as it is
    have hs : s = next → recordsOf (line :: body) = recordsOf body →
        Listing graph (records ++ recordsOf (line :: body)) s' := by
      intro hn heq
      rw [heq]
      rw [← hn] at hlt
      exact Listing.run h hh' hl' hlt
    obtain ⟨net, hc, hg, -⟩ := h.current
    cases line with
    | blank => exact hs (ok.inj hn) rfl
    | net id name global => cases hhr
    | localCluster => exact absurd mem_cons_self hl
    | node routed =>
      have hrs := @Listing.run body (records ++ [routed]) next (h.node hn) hh' hl'
        hlt
      rw [append_assoc, singleton_append] at hrs
      exact hrs
    | comment =>
      unfold checkLine at hn
      rw [hc] at hn
      dsimp only at hn
      rw [hg, if_neg (by simp)] at hn
      exact hs (ok.inj hn) rfl
    | _ =>
      unfold checkLine at hn
      rw [hc] at hn
      dsimp only at hn
      rw [hg, if_neg (by simp)] at hn
      cases hn

def Idle (s : CheckState) : Prop := s.current = none → s.currentNodes = [] ∧ s.previous = none

theorem finishNet_spec (h : finishNet s = .ok s') (hi : Idle s) :
    s'.currentNodes = [] ∧ s'.previous = none ∧ s'.occupancy = s.occupancy ∧
      ∀ net, s.current = some net → finishedNet net s.previous = .ok () := by
  unfold finishNet at h
  split at h
  · next hn =>
    cases h
    obtain ⟨hnd, hp⟩ := hi hn
    refine ⟨hnd, hp, rfl, fun net hnt => ?_⟩
    rw [hn] at hnt
    cases hnt
  · next net hs =>
    obtain ⟨⟨⟩, hf, h⟩ := bind_eq_ok.mp h
    cases h
    refine ⟨rfl, rfl, rfl, fun net' hnt' => ?_⟩
    rw [hs] at hnt'
    rw [← Option.some.inj hnt']
    exact hf

theorem checkLine_header {id : ℕ} {name : String} {global : Bool}
    (h : checkLine graph s (.net id name global) = .ok s') (hi : Idle s) :
    s'.currentNodes = [] ∧ s'.previous = none ∧ s'.occupancy = s.occupancy ∧
      s'.current = some { id := id, name := name, global := global } ∧
        ∀ net, s.current = some net → finishedNet net s.previous = .ok () := by
  obtain ⟨finished, hf, h⟩ := bind_eq_ok.mp h
  obtain ⟨-, h⟩ := raiseIf_bind.mp h
  cases h
  obtain ⟨hn, hp, ho, hnt⟩ := finishNet_spec hf hi
  exact ⟨hn, hp, ho, rfl, hnt⟩

theorem checkLine_cases (h : checkLine graph s line = .ok s') (hh : line.isHeader = false) :
    ((∀ routed, line ≠ .node routed) ∧ (s' = s ∨ ∃ net, s' = { s with current := some net })) ∨
      ∃ net routed, line = .node routed ∧ NodeChecked graph net routed s s' := by
  cases hc : s.current with
  | none =>
    cases line with
    | net id name global => cases hh
    | blank => exact .inl ⟨by simp, .inl (ok.inj h).symm⟩
    | comment =>
      simp only [checkLine, hc] at h
      exact .inl ⟨by simp, .inl (ok.inj h).symm⟩
    | _ => simp [checkLine, hc] at h
  | some net =>
    cases hg : net.global with
    | true =>
      cases line with
      | net id name global => cases hh
      | blank => exact .inl ⟨by simp, .inl (ok.inj h).symm⟩
      | block =>
        simp only [checkLine, hc, hg] at h
        exact .inl ⟨by simp, .inr ⟨_, (ok.inj h).symm⟩⟩
      | _ => simp [checkLine, hc, hg] at h
    | false =>
      cases line with
      | net id name global => cases hh
      | blank => exact .inl ⟨by simp, .inl (ok.inj h).symm⟩
      | comment =>
        simp [checkLine, hc, hg, checkRouted] at h
        exact .inl ⟨by simp, .inl h.symm⟩
      | localCluster =>
        simp only [checkLine, hc, hg, checkRouted] at h
        exact .inl ⟨by simp, .inr ⟨_, (ok.inj h).symm⟩⟩
      | node routed =>
        simp [checkLine, hc, hg, checkRouted] at h
        exact .inr ⟨net, routed, rfl, checkNode_spec h⟩
      | _ => simp [checkLine, hc, hg, checkRouted] at h

theorem Idle.step (hi : Idle s) (h : checkLine graph s line = .ok s') : Idle s' := by
  cases hh : line.isHeader with
  | true =>
    cases line with
    | net id name global =>
      obtain ⟨hnd, hp, -⟩ := checkLine_header h hi
      exact fun _ => ⟨hnd, hp⟩
    | _ => cases hh
  | false =>
    rcases checkLine_cases h hh with ⟨-, rfl | ⟨net, rfl⟩⟩ | ⟨net, routed, -, hc⟩
    · exact hi
    · intro hn
      cases hn
    · intro hn
      obtain ⟨sinks, hnx⟩ := hc.current
      rw [hnx] at hn
      cases hn

def usage (nets : List NetLines) (v : ℕ) : ℕ :=
  nets.countP fun net => v ∈ (recordsOf net.body).map ParsedNode.id

theorem usage_cons {net : NetLines} {nets : List NetLines} {v : ℕ} : usage (net :: nets) v =
      (if v ∈ (recordsOf net.body).map ParsedNode.id then 1 else 0) + usage nets v := by
  unfold usage
  rw [countP_cons, Nat.add_comm]
  simp only [decide_eq_true_eq]

theorem occupancy_run {v : ℕ} : ∀ {lines : List RouteLine} {s : CheckState}, Idle s →
    lines.foldlM (checkLine graph) s = .ok s' → s'.occupancy v = s.occupancy v +
        (if v ∈ (recordsOf (splitNets lines).1).map ParsedNode.id ∧ v ∉ s.currentNodes
          then 1 else 0) + usage (splitNets lines).2 v
  | [], s, _, h => by
    cases h
    simp [splitNets, recordsOf, usage]
  | line :: lines, s, hi, h => by
    rw [foldlM_cons] at h
    obtain ⟨next, hn, h'⟩ := bind_eq_ok.mp h
    have ih := @occupancy_run v lines next (hi.step hn) h'
    cases hh : line.isHeader with
    | true =>
      cases line with
      | net id name global =>
        obtain ⟨hnd, -, ho, -⟩ := checkLine_header hn hi
        rw [ih, hnd, ho, splitNets, usage_cons, Nat.add_assoc, Nat.add_assoc]
        simp [show recordsOf [] = [] from rfl]
      | _ => cases hh
    | false =>
      rw [splitNets_cons hh, ih]
      rcases checkLine_cases hn hh with ⟨hot, hn'⟩ | ⟨net, routed, rfl, hc⟩
      · have hr : recordsOf (line :: (splitNets lines).1) = recordsOf (splitNets lines).1 := by
          cases line with
          | node routed => exact absurd rfl (hot routed)
          | _ => rfl
        rw [hr]
        rcases hn' with rfl | ⟨net, rfl⟩ <;> rfl
      · have hr : recordsOf (.node routed :: (splitNets lines).1) =
            routed :: recordsOf (splitNets lines).1 := rfl
        rw [hr, hc.occupancy]
        simp only [map_cons, mem_cons]
        have hnd := hc.nodes v
        by_cases hv : v = routed.id
        · subst hv
          have hnw := hnd.mpr (.inr rfl)
          by_cases hm : routed.id ∈ s.currentNodes
          · simp [hm, hnw]
          · simp [hm, hnw]
        · simp [hnd, hv]

/-- No node is used by more nets than its capacity. -/
theorem usage_le_capacity (h : checkRoute graph file = .ok s') {v : ℕ} {rr : RrNode}
    (hr : graph.nodes[v]? = some rr) : usage (splitNets file.lines).2 v ≤ rr.capacity := by
  obtain ⟨-, h⟩ := raiseIf_bind.mp h
  obtain ⟨-, h⟩ := raiseIf_bind.mp h
  obtain ⟨last, hl, h⟩ := bind_eq_ok.mp h
  have hb : last.occupancy v ≤ rr.capacity ∧ Idle last := by
    refine foldlM_invariant (fun s => s.occupancy v ≤ rr.capacity ∧ Idle s) ?_
      ⟨Nat.zero_le _, fun _ => ⟨rfl, rfl⟩⟩ hl
    rintro line - s t ⟨hle, hi⟩ ht
    refine ⟨?_, hi.step ht⟩
    cases hh : line.isHeader with
    | true =>
      cases line with
      | net id name global =>
        obtain ⟨-, -, ho, -⟩ := checkLine_header ht hi
        rw [ho]
        exact hle
      | _ => cases hh
    | false =>
      rcases checkLine_cases ht hh with ⟨-, rfl | ⟨net, rfl⟩⟩ | ⟨net, routed, -, hc⟩
      · exact hle
      · exact hle
      · exact hc.capacity v rr hr hle
  have ho := @occupancy_run graph last v file.lines {} (fun _ => ⟨rfl, rfl⟩) hl
  have hle := hb.1
  rw [ho] at hle
  omega

end EmuFlow.RouteChecker
