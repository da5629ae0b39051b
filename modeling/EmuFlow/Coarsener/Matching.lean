import Mathlib.Combinatorics.SimpleGraph.Metric
import EmuFlow.Coarsener.Coarsen
import EmuFlow.Lib.Keyed

/-!
# MFSPart coarsener: distances

The nets of a graph join each source to its sinks. The breadth-first table of an anchor holds the
distances of that graph, and the labels of a zero-one search are the costs of cheapest walks.
-/

namespace EmuFlow.Coarsener

open List

section skeleton

variable {dims : ℕ} (graph : Graph dims)

def Joined (x y : Fin graph.size) : Prop :=
  ∃ net ∈ graph.nets, (net.source = x ∧ y ∈ net.sinks) ∨ (net.source = y ∧ x ∈ net.sinks)

variable {graph}

variable {x y : Fin graph.size}

theorem mem_neighbors : y ∈ neighbors graph x ↔ Joined graph x y := by
  simp only [neighbors, mem_flatMap, mem_sinkList, List.mem_append, Joined]
  refine exists_congr fun net => and_congr_right fun _ => ?_
  constructor
  · rintro ⟨sink, hsn, h | h⟩
    · split_ifs at h with hs
      · exact .inl ⟨hs, mem_singleton.mp h ▸ hsn⟩
      · exact absurd h not_mem_nil
    · split_ifs at h with hn
      · exact .inr ⟨(mem_singleton.mp h).symm, hn ▸ hsn⟩
      · exact absurd h not_mem_nil
  · rintro (⟨hs, hy⟩ | ⟨hs, hx⟩)
    · exact ⟨y, hy, .inl (by rw [if_pos hs]; exact mem_singleton_self y)⟩
    · exact ⟨x, hx, .inr (by rw [if_pos rfl, hs]; exact mem_singleton_self y)⟩

theorem Joined.symm (h : Joined graph x y) : Joined graph y x := by
  obtain ⟨net, hn, hp⟩ := h
  exact ⟨net, hn, hp.symm⟩

theorem Joined.ne (h : Joined graph x y) : x ≠ y := by
  rintro rfl
  obtain ⟨net, -, ⟨hs, hsn⟩ | ⟨hs, hsn⟩⟩ := h
  · exact net.source_not_sink (hs ▸ hsn)
  · exact net.source_not_sink (hs ▸ hsn)

variable (graph)

def Graph.skeleton : SimpleGraph (Fin graph.size) where
  Adj := Joined graph
  symm := ⟨fun _ _ h => h.symm⟩
  loopless := ⟨fun _ h => h.ne rfl⟩

end skeleton

section table

variable {dims : ℕ} {graph : Graph dims} {anchor : Fin graph.size}

def anchorRecords (graph : Graph dims) (anchor : Fin graph.size) : List (Fin graph.size × ℕ) :=
  Discovery.run (fun x => (neighbors graph x).map fun y => (y, ())) (fun record _ => record.2 + 1)
    graph.size (anchor, 0)

theorem walk_of_record : ∀ {distance : ℕ} {node : Fin graph.size},
    (node, distance) ∈ anchorRecords graph anchor →
    ∃ walk : graph.skeleton.Walk anchor node, walk.length = distance := by
  intro distance
  induction distance with
  | zero =>
    intro node h
    rcases Discovery.run_linked _ h with hrt | ⟨p, -, edge, -, hr⟩
    · cases hrt
      exact ⟨.nil, rfl⟩
    · exact absurd (congrArg Prod.snd hr) (by simp)
  | succ distance ih =>
    intro node h
    rcases Discovery.run_linked _ h with hrt | ⟨p, hp, edge, he, hr⟩
    · exact absurd (congrArg Prod.snd hrt) (by simp)
    · obtain ⟨rfl, hd⟩ := Prod.mk.inj hr
      obtain ⟨target, ht, rfl⟩ := mem_map.mp he
      have hs : distance = p.2 := Nat.succ.inj hd
      have hpr : (p.1, distance) ∈ anchorRecords graph anchor := by
        rw [hs]
        exact hp
      have ha : graph.skeleton.Adj p.1 target := mem_neighbors.mp ht
      obtain ⟨walk, hw⟩ := ih hpr
      exact ⟨walk.concat ha, by rw [SimpleGraph.Walk.length_concat, hw]⟩

theorem record_of_walk {x node : Fin graph.size} (walk : graph.skeleton.Walk x node) :
    ∀ {dist : ℕ}, (x, dist) ∈ anchorRecords graph anchor →
      ∃ distance', (node, distance') ∈ anchorRecords graph anchor ∧
        distance' ≤ dist + walk.length := by
  induction walk with
  | nil => exact fun h => ⟨_, h, Nat.le_refl _⟩
  | @cons x y node ha walk ih =>
    intro dist h
    have he : (y, ()) ∈ (neighbors graph x).map fun y => (y, ()) :=
      mem_map_of_mem (mem_neighbors.mpr ha)
    obtain ⟨f, hf, hk, hle⟩ := Discovery.run_depth_le id (fun _ _ => rfl)
      (finRange graph.size) (mem_finRange _) (fun _ _ _ => mem_finRange _)
      (by simp) _ h (y, ()) he
    have hn : (y, f.2) ∈ anchorRecords graph anchor := by
      have hp : f = (y, f.2) := Prod.ext hk rfl
      rw [← hp]
      exact hf
    obtain ⟨distance', hm, hle'⟩ := ih hn
    refine ⟨distance', hm, ?_⟩
    rw [SimpleGraph.Walk.length_cons]
    dsimp only [id] at hle
    omega

theorem anchorDistance_some {node : Fin graph.size} {distance : ℕ}
    (h : anchorDistance graph anchor node = some distance) :
    graph.skeleton.edist anchor node = distance := by
  have hm : (node, distance) ∈ anchorRecords graph anchor := Keyed.mem_of_lookup h
  obtain ⟨walk, hw⟩ := walk_of_record hm
  refine le_antisymm ?_ ?_
  · rw [← hw]
    exact SimpleGraph.edist_le walk
  · obtain ⟨shortest, hs⟩ := walk.reachable.exists_walk_length_eq_edist
    obtain ⟨distance', hm', hle⟩ := record_of_walk shortest
      (Discovery.root_mem_run : (anchor, 0) ∈ anchorRecords graph anchor)
    have hn : ((anchorRecords graph anchor).map Prod.fst).Nodup := Discovery.run_nodup
    have hsm : distance = distance' := by
      have h1 := Keyed.lookup_of_mem hn hm
      rw [Keyed.lookup_of_mem hn hm'] at h1
      exact (Option.some.inj h1).symm
    rw [← hs, hsm]
    exact_mod_cast (by omega : distance' ≤ shortest.length)

theorem anchorDistance_none {node : Fin graph.size} (h : anchorDistance graph anchor node = none) :
    graph.skeleton.edist anchor node = ⊤ := by
  by_contra ht
  obtain ⟨walk⟩ := SimpleGraph.reachable_of_edist_ne_top ht
  obtain ⟨dist, hm, -⟩ := record_of_walk walk
    (Discovery.root_mem_run : (anchor, 0) ∈ anchorRecords graph anchor)
  obtain ⟨value, hv⟩ := Keyed.exists_lookup (mem_map_of_mem (f := Prod.fst) hm)
  rw [anchorDistance] at h
  rw [anchorRecords, h] at hv
  cases hv

end table

/-! ## labels -/

section labels

variable {n k : ℕ}

section

variable (d : ℕ∞) (p : Option (Fin n)) (m : Option (Fin k))
include d p m

@[simp] theorem distance_make : (Label.make d p m).distance = d := rfl

@[simp] theorem parent_make : (Label.make d p m).parent = p := rfl

@[simp] theorem parentMerge_make : (Label.make d p m).parentMerge = m := rfl

end

/-- What breaks ties: the parent and its merge. -/
def Label.key (label : Label n k) : WithBot (Fin n) ×ₗ WithBot (Fin k) := (ofLex label).2

theorem Label.le_iff {a b : Label n k} : a ≤ b ↔ a.distance < b.distance ∨
    (a.distance = b.distance ∧ a.key ≤ b.key) :=
  Prod.Lex.toLex_le_toLex (x := ofLex a) (y := ofLex b)

theorem Label.distance_le {a b : Label n k} (h : a ≤ b) : a.distance ≤ b.distance := by
  rcases Label.le_iff.mp h with hlt | ⟨hs, -⟩
  · exact hlt.le
  · exact hs.le

theorem Label.start_le (label : Label n k) : Label.make (0 : ℕ) none none ≤ label := by
  rw [Label.le_iff]
  have hb : (Label.make (0 : ℕ) none none : Label n k).key = ⊥ := rfl
  rcases eq_or_lt_of_le (bot_le : (0 : ℕ∞) ≤ label.distance) with h | h
  · exact .inr ⟨h, hb ▸ bot_le⟩
  · exact .inl h

end labels

/-! ## the zero-one search -/

section zeroOne

variable {n k : ℕ}

inductive Costs (adjacency : Fin n → List (Arc n k)) (source : Fin n) : Fin n → ℕ → Prop
  | start : Costs adjacency source source 0
  | step {node : Fin n} {cost : ℕ} {arc : Arc n k} (h : Costs adjacency source node cost)
      (harc : arc ∈ adjacency node) : Costs adjacency source arc.target (cost + arc.cost)

structure Searched (adjacency : Fin n → List (Arc n k)) (source : Fin n)
    (labels : Fin n → Label n k) : Prop where
  source_label : labels source = Label.make (0 : ℕ) none none
  closed : ∀ node (distance : ℕ), (labels node).distance = distance → ∀ arc ∈ adjacency node,
    labels arc.target ≤ Label.make ((distance + arc.cost : ℕ) : ℕ∞) (some node) arc.merge
  costs : ∀ node (distance : ℕ), (labels node).distance = distance →
    Costs adjacency source node distance
  /-- A label comes from an arc whose start is now no farther than it was. -/
  offered : ∀ node (distance : ℕ), node ≠ source → (labels node).distance = distance →
    ∃ parent, ∃ arc ∈ adjacency parent, ∃ before : ℕ, arc.target = node ∧
      (labels parent).distance ≤ before ∧
      labels node = Label.make ((before + arc.cost : ℕ) : ℕ∞) (some parent) arc.merge

variable {adjacency : Fin n → List (Arc n k)}

theorem mem_offers {node : Fin n} {label : Label n k}
    {offer : LabelCorrecting.Offer (Fin n) (Label n k)} :
    offer ∈ offers adjacency node label ↔ ∃ dist : ℕ, label.distance = dist ∧
      ∃ arc ∈ adjacency node, offer.target = arc.target ∧
        offer.label = Label.make ((dist + arc.cost : ℕ) : ℕ∞) (some node) arc.merge ∧
        offer.front = decide (arc.cost = 0) := by
  rw [offers]
  split
  · next htp =>
    refine iff_of_false not_mem_nil ?_
    rintro ⟨dist, hd, -⟩
    rw [hd] at htp
    cases htp
  · next dist hd =>
    rw [mem_map]
    constructor
    · rintro ⟨arc, harc, rfl⟩
      exact ⟨dist, hd, arc, harc, rfl, rfl, rfl⟩
    · rintro ⟨distance', hs, arc, harc, ht, hl, hf⟩
      obtain rfl : dist = distance' := Option.some.inj (hd.symm.trans hs)
      refine ⟨arc, harc, ?_⟩
      cases offer
      simp only at ht hl hf
      rw [ht, hl, hf]

@[simp] theorem startState_source (source : Fin n) :
    (startState (k := k) source).labels source = Label.make (0 : ℕ) none none :=
  if_pos rfl

theorem startState_of_ne {source node : Fin n} (h : node ≠ source) :
    (startState (k := k) source).labels node = Label.make ⊤ none none :=
  if_neg h

variable {labels : Fin n → Label n k}

/-- What the search leaves are cheapest labels. -/
theorem searched_of_search {source : Fin n} {fuel : ℕ}
    (h : search fuel adjacency source = some labels) : Searched adjacency source labels := by
  obtain ⟨s, hl, rfl⟩ := Option.map_eq_some_iff.mp h
  have hc : LabelCorrecting.Closed (offers adjacency) (startState (k := k) source) := by
    intro node
    by_cases hnd : node = source
    · exact .inl (by simp [startState, hnd])
    · refine .inr fun offer ho => ?_
      obtain ⟨distance, ht, -⟩ := mem_offers.mp ho
      rw [startState_of_ne hnd] at ht
      cases ht
  refine ⟨?_, ?_, ?_, ?_⟩
  · have hle := LabelCorrecting.loop_le hl source
    rw [startState_source] at hle
    exact le_antisymm hle (Label.start_le _)
  · intro node distance hd arc harc
    exact hc.loop hl node { target := arc.target, label := _, front := _ }
      (mem_offers.mpr ⟨distance, hd, arc, harc, rfl, rfl, rfl⟩)
  · refine LabelCorrecting.Sound.loop (P := fun node label => ∀ distance : ℕ,
      Label.distance label = distance → Costs adjacency source node distance) ?_ ?_ hl
    · intro node label hlb offer ho distance hd
      obtain ⟨before, hb, arc, harc, htr, hor, -⟩ := mem_offers.mp ho
      rw [hor, distance_make] at hd
      obtain rfl : before + arc.cost = distance := by exact_mod_cast hd
      rw [htr]
      exact .step (hlb before hb) harc
    · intro node distance hd
      by_cases hnd : node = source
      · subst hnd
        rw [startState_source, distance_make] at hd
        obtain rfl : 0 = distance := by exact_mod_cast hd
        exact .start
      · rw [startState_of_ne hnd] at hd
        cases hd
  · intro node distance hnd hd
    rcases LabelCorrecting.Supported.loop hl node with hf | ⟨parent, label, hle, offer,
      ho, htr, hlb⟩
    · rw [hf, startState_of_ne hnd] at hd
      cases hd
    · obtain ⟨before, hb, arc, harc, htr', hor, -⟩ := mem_offers.mp ho
      refine ⟨parent, arc, harc, before, by rw [← htr', htr], ?_, by rw [← hlb, hor]⟩
      rw [← hb]
      exact Label.distance_le hle

theorem exists_search (adjacency : Fin n → List (Arc n k)) (source : Fin n) :
    ∃ fuel labels, search fuel adjacency source = some labels := by
  obtain ⟨fuel, s, h⟩ := LabelCorrecting.exists_loop (offers adjacency) (startState source)
  exact ⟨fuel, s.labels, by rw [search, h]; rfl⟩

theorem search_mono {source : Fin n} {fuel fuel' : ℕ} (hle : fuel ≤ fuel')
    (h : search fuel adjacency source = some labels) :
    search fuel' adjacency source = some labels := by
  obtain ⟨s, hl, rfl⟩ := Option.map_eq_some_iff.mp h
  rw [search, LabelCorrecting.loop_mono hle hl]
  rfl

namespace Searched

variable {adjacency : Fin n → List (Arc n k)} {source : Fin n} {labels : Fin n → Label n k}
  (h : Searched adjacency source labels)

include h

theorem distance_le {node : Fin n} {cost : ℕ} (hc : Costs adjacency source node cost) :
    ∃ dist : ℕ, (labels node).distance = dist ∧ dist ≤ cost := by
  induction hc with
  | start => exact ⟨0, by rw [h.source_label]; rfl, Nat.le_refl 0⟩
  | @step node cost arc _ harc ih =>
    obtain ⟨dist, hd, hle⟩ := ih
    have hl := Label.distance_le (h.closed node dist hd arc harc)
    rw [distance_make] at hl
    obtain ⟨target, ht⟩ := ENat.ne_top_iff_exists.mp
      (ne_top_of_le_ne_top (ENat.natCast_ne_top _) hl)
    rw [← ht] at hl
    have hle' : target ≤ dist + arc.cost := by exact_mod_cast hl
    exact ⟨target, ht.symm, by omega⟩

theorem tight {node : Fin n} {distance : ℕ} (hn : node ≠ source)
    (hd : (labels node).distance = distance) :
    ∃ parent, ∃ arc ∈ adjacency parent, ∃ before : ℕ, arc.target = node ∧
      (labels parent).distance = before ∧ before + arc.cost = distance ∧
      (labels node).parent = some parent ∧ (labels node).parentMerge = arc.merge := by
  obtain ⟨parent, arc, harc, before, ht, hle, hl⟩ := h.offered node distance hn hd
  obtain ⟨now, hnw⟩ := ENat.ne_top_iff_exists.mp (ne_top_of_le_ne_top (ENat.natCast_ne_top _) hle)
  have hb := Label.distance_le (h.closed parent now hnw.symm arc harc)
  rw [ht, hl, distance_make, distance_make] at hb
  rw [← hnw] at hle
  have h1 : now ≤ before := by exact_mod_cast hle
  have h2 : before + arc.cost ≤ now + arc.cost := by exact_mod_cast hb
  rw [hl, distance_make] at hd
  have h3 : before + arc.cost = distance := by exact_mod_cast hd
  exact ⟨parent, arc, harc, now, ht, hnw.symm, by omega, by rw [hl]; rfl,
    by rw [hl]; rfl⟩

end Searched

end zeroOne

/-!
## MFSPart coarsener: the selected merges

A candidate joins two neighbours that pass every test; the selection is a matching.
-/

section candidates

variable {dims : ℕ} [NeZero dims] {input : Input dims} {fine : Graph dims} {level : ℕ}

omit [NeZero dims] in
theorem joined_of_mem_pairWeight {entry : (Fin fine.size × Fin fine.size) × ℚ}
    (h : entry ∈ pairWeight fine) : Joined fine entry.1.1 entry.1.2 := by
  let Good (weights : List ((Fin fine.size × Fin fine.size) × ℚ)) : Prop :=
    ∀ pair ∈ weights.map Prod.fst, Joined fine pair.1 pair.2
  have ha : Good (pairWeight fine) := by
    refine foldlRecOn (motive := Good) fine.nets _ (fun _ h => absurd h not_mem_nil)
      fun weights hw net hn => ?_
    refine foldlRecOn (motive := Good) (sinkList net.sinks) _ hw
      fun weights hw sink hs pair hp => ?_
    rcases OrderedMap.mem_keys_add.mp hp with rfl | hm
    · have hj : Joined fine net.source sink := ⟨net, hn, .inl ⟨rfl, mem_sinkList.mp hs⟩⟩
      rcases le_total net.source sink with hle | hle
      · rw [min_eq_left hle, max_eq_right hle]
        exact hj
      · rw [min_eq_right hle, max_eq_left hle]
        exact hj.symm
    · exact hw pair hm
  exact ha entry.1 (mem_map_of_mem h)

/-- What the tests of a candidate say. -/
structure Passed (input : Input dims) (fine : Graph dims) (left right : Fin fine.size) : Prop where
  joined : Joined fine left right
  verdict : verdict input fine left right = .candidate

theorem passed_of_mem_candidates {candidate : Candidate fine.size}
    (h : candidate ∈ candidates input fine level) :
    Passed input fine candidate.left candidate.right := by
  obtain ⟨e, he, hs⟩ := mem_filterMap.mp h
  rw [Option.ite_none_right_eq_some, Option.some.injEq] at hs
  obtain ⟨hv, rfl⟩ := hs
  exact ⟨joined_of_mem_pairWeight he, hv⟩

variable {left right : Fin fine.size}

theorem Passed.fixed_eq (h : Passed input fine left right) {p q : ℕ}
    (hp : (fine.nodes left).fixedPart = some p) (hq : (fine.nodes right).fixedPart = some q) :
    p = q := by
  have hv := h.verdict
  rw [Coarsener.verdict] at hv
  split_ifs at hv with hpr hf
  all_goals
    rw [hp, hq] at hf
    simpa using hf

theorem Passed.fits (h : Passed input fine left right) (dimension : Fin dims) :
    MachineInt.int64 ((fine.nodes left).weights dimension +
      (fine.nodes right).weights dimension) ≤ input.coarseBounds dimension := by
  have hv := h.verdict
  rw [Coarsener.verdict] at hv
  split_ifs at hv with hp hf hb
  all_goals exact hb dimension

end candidates

/-! ## the selection -/

section selection

variable {n : ℕ}

def Candidate.nodes (candidate : Candidate n) : List (Fin n) := [candidate.left, candidate.right]

theorem matched_iff {selected : List (Candidate n)} {node : Fin n} :
    matched selected node = true ↔ ∃ c ∈ selected, node ∈ c.nodes := by
  rw [matched, any_eq_true]
  refine exists_congr fun c => and_congr_right fun _ => ?_
  rw [Bool.or_eq_true, decide_eq_true_eq, decide_eq_true_eq, Candidate.nodes, mem_pair,
    eq_comm, or_comm, eq_comm, or_comm]

/-- Candidates of distinct nodes, no two with a node in common. -/
structure Matching (selected : List (Candidate n)) : Prop where
  ne : ∀ candidate ∈ selected, candidate.left ≠ candidate.right
  disjoint : selected.Pairwise fun a b => List.Disjoint a.nodes b.nodes

theorem select_spec {candidates : List (Candidate n)}
    (hne : ∀ c ∈ candidates, c.left ≠ c.right) :
    Matching (select candidates) ∧ ∀ c ∈ select candidates, c ∈ candidates := by
  let Good (selected : List (Candidate n)) : Prop :=
    Matching selected ∧ ∀ c ∈ selected, c ∈ candidates
  have hi : Good [] := ⟨⟨by simp, .nil⟩, by simp⟩
  refine foldlRecOn (motive := Good) candidates _ hi fun selected h c hmm => ?_
  split_ifs with hf
  · exact h
  · rw [Bool.or_eq_true, not_or] at hf
    obtain ⟨hl, hr⟩ := hf
    refine ⟨⟨?_, ?_⟩, ?_⟩
    · intro other ho
      rcases List.mem_append.mp ho with ho | ho
      · exact h.1.ne other ho
      · rw [mem_singleton.mp ho]
        exact hne c hmm
    · rw [pairwise_append]
      refine ⟨h.1.disjoint, pairwise_singleton _ _, fun other ho b hb => ?_⟩
      rw [mem_singleton.mp hb]
      intro node hn hn'
      have hm : matched selected node = true := matched_iff.mpr ⟨other, ho, hn⟩
      rcases mem_pair.mp hn' with rfl | rfl
      · exact hl hm
      · exact hr hm
    · intro other ho
      rcases List.mem_append.mp ho with ho | ho
      · exact h.2 other ho
      · rw [mem_singleton.mp ho]
        exact hmm

variable {selected : List (Candidate n)}

theorem Matching.eq_of_mem (h : Matching selected) {i j : Fin selected.length} {node : Fin n}
    (hi : node ∈ (selected.get i).nodes) (hj : node ∈ (selected.get j).nodes) : i = j := by
  by_contra hne
  have hd : ∀ i j : Fin selected.length, i < j →
      List.Disjoint (selected.get i).nodes (selected.get j).nodes :=
    fun i j hij => pairwise_iff_get.mp h.disjoint i j hij
  rcases lt_or_gt_of_ne hne with hlt | hlt
  · exact hd i j hlt hi hj
  · exact hd j i hlt hj hi

end selection

section selectedMerges

variable {dims : ℕ} [NeZero dims] {input : Input dims} {fine : Graph dims} {level : ℕ}

/-- The selected merges are a matching. -/
theorem matching_selectedMerges : Matching (selectedMerges input fine level) := by
  refine (select_spec fun c hm => ?_).1
  rw [mem_insertionSort] at hm
  exact (passed_of_mem_candidates hm).joined.ne

theorem passed_of_mem_selectedMerges {c : Candidate fine.size}
    (h : c ∈ selectedMerges input fine level) :
    Passed input fine c.left c.right := by
  have hm := (select_spec fun c hm => ?_).2 c h
  · rw [mem_insertionSort] at hm
    exact passed_of_mem_candidates hm
  · rw [mem_insertionSort] at hm
    exact (passed_of_mem_candidates hm).joined.ne

end selectedMerges

end EmuFlow.Coarsener
