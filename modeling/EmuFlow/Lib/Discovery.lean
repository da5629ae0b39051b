import Mathlib.Data.List.Nodup
import Mathlib.Logic.Relation
import Mathlib.Tactic

/-!
# Breadth-first discovery

A worklist search that writes one record for each node the first time it sees it, from the record
of the node it was seen from. `adj` lists the labelled edges out of a node and `derive` makes the
record of the far end of an edge.
-/

namespace Discovery

open List

variable {α ε ι : Type}
variable (adj : α → List (α × ε)) (derive : α × ι → α × ε → ι)

/-- The records found so far, in order, and those whose edges are still to be followed. -/
structure State (α ι : Type) where
  found : List (α × ι)
  queue : List (α × ι)

def State.nodes (s : State α ι) : List α := s.found.map Prod.fst

/-- Follow the edges out of `current`. -/
def visit [DecidableEq α] (current : α × ι) : List (α × ε) → State α ι → State α ι
  | [], s => s
  | edge :: rest, s =>
    if edge.1 ∈ s.nodes then visit current rest s
    else
      let record := (edge.1, derive current edge)
      visit current rest { found := s.found ++ [record], queue := s.queue ++ [record] }

/-- Drain the queue, for at most `fuel` nodes. -/
def loop [DecidableEq α] : Nat → State α ι → State α ι
  | 0, s => s
  | fuel + 1, s =>
    match s.queue with
    | [] => s
    | current :: queue => loop fuel (visit derive current (adj current.1) { s with queue := queue })

/-- The records found from `root`. -/
def run [DecidableEq α] (fuel : Nat) (root : α × ι) : List (α × ι) :=
  (loop adj derive fuel { found := [root], queue := [root] }).found

/-! ## what a record says -/

def Linked (root : α × ι) (found : List (α × ι)) : Prop :=
  ∀ r ∈ found, r = root ∨ ∃ p ∈ found, ∃ edge ∈ adj p.1, r = (edge.1, derive p edge)

structure Inv (root : α × ι) (s : State α ι) : Prop where
  linked : Linked adj derive root s.found
  nodup : s.nodes.Nodup
  queued : ∀ r ∈ s.queue, r ∈ s.found
  root_mem : root ∈ s.found

variable {adj derive} {root : α × ι} {s : State α ι}

theorem Inv.init : Inv adj derive root { found := [root], queue := [root] } where
  linked := by
    intro r hr
    exact Or.inl (mem_singleton.mp hr)
  nodup := by simp [State.nodes]
  queued := fun _ h => h
  root_mem := mem_singleton_self root

theorem Inv.push (h : Inv adj derive root s) {p : α × ι} (hp : p ∈ s.found) {edge : α × ε}
    (he : edge ∈ adj p.1) (hnw : edge.1 ∉ s.nodes) :
    Inv adj derive root { found := s.found ++ [(edge.1, derive p edge)],
                          queue := s.queue ++ [(edge.1, derive p edge)] } where
  linked := by
    intro r hr
    rcases List.mem_append.mp hr with hr | hr
    · rcases h.linked r hr with rfl | ⟨q, hq, e, he', rfl⟩
      · exact Or.inl rfl
      · exact Or.inr ⟨q, mem_append_left _ hq, e, he', rfl⟩
    · rw [mem_singleton] at hr
      exact Or.inr ⟨p, mem_append_left _ hp, edge, he, hr⟩
  nodup := by
    have hn : s.nodes.Nodup := h.nodup
    simp only [State.nodes, map_append, map_cons, map_nil] at hn hnw ⊢
    rw [nodup_append]
    refine ⟨hn, by simp, ?_⟩
    intro a ha b hb hab
    rw [mem_singleton] at hb
    exact hnw (hb ▸ hab ▸ ha)
  queued := by
    intro r hr
    rcases List.mem_append.mp hr with hr | hr
    · exact mem_append_left _ (h.queued r hr)
    · exact mem_append_right _ hr
  root_mem := mem_append_left _ h.root_mem

variable [DecidableEq α]

theorem Inv.visit {current : α × ι} :
    ∀ {edges : List (α × ε)} {s : State α ι}, Inv adj derive root s → current ∈ s.found →
      (∀ e ∈ edges, e ∈ adj current.1) → Inv adj derive root (visit derive current edges s)
  | [], _, h, _, _ => h
  | edge :: rest, s, h, hc, he => by
    have hr : ∀ e ∈ rest, e ∈ adj current.1 := fun e hm => he e (mem_cons_of_mem _ hm)
    unfold Discovery.visit
    split
    · exact Inv.visit h hc hr
    · next hn =>
      exact Inv.visit (h.push hc (he edge mem_cons_self) hn) (mem_append_left _ hc) hr

theorem Inv.loop : ∀ {fuel : Nat} {s : State α ι}, Inv adj derive root s →
      Inv adj derive root (loop adj derive fuel s)
  | 0, _, h => h
  | fuel + 1, s, h => by
    unfold Discovery.loop
    split
    · exact h
    · next current queue hq =>
      have hc : current ∈ s.found := h.queued current (hq ▸ mem_cons_self)
      have hp : Inv adj derive root { s with queue := queue } :=
        { h with queued := fun r hr => h.queued r (hq ▸ mem_cons_of_mem _ hr) }
      exact Inv.loop (hp.visit hc fun _ he => he)

variable {fuel : Nat}

theorem run_linked : Linked adj derive root (run adj derive fuel root) :=
  (Inv.init.loop : Inv adj derive root (loop adj derive fuel _)).linked

theorem run_nodup : ((run adj derive fuel root).map Prod.fst).Nodup :=
  (Inv.init.loop : Inv adj derive root (loop adj derive fuel _)).nodup

theorem root_mem_run : root ∈ run adj derive fuel root :=
  (Inv.init.loop : Inv adj derive root (loop adj derive fuel _)).root_mem

/-! ## nothing reachable is missed -/

/-- Every recorded node is still queued or has all its neighbours recorded. -/
def Closed (adj : α → List (α × ε)) (s : State α ι) : Prop :=
  ∀ r ∈ s.found, r ∈ s.queue ∨ ∀ edge ∈ adj r.1, edge.1 ∈ s.nodes

theorem visit_spec (derive : α × ι → α × ε → ι) (current : α × ι) :
    ∀ (edges : List (α × ε)) (s : State α ι),
      ∃ new, (visit derive current edges s).found = s.found ++ new ∧
        (visit derive current edges s).queue = s.queue ++ new ∧
        ∀ edge ∈ edges, edge.1 ∈ (visit derive current edges s).nodes
  | [], s => ⟨[], by simp [visit]⟩
  | edge :: rest, s => by
    unfold visit
    split
    · next hm =>
      obtain ⟨new, hf, hq, hr⟩ := visit_spec derive current rest s
      refine ⟨new, hf, hq, forall_mem_cons.mpr ⟨?_, hr⟩⟩
      simp only [State.nodes, hf, map_append, List.mem_append]
      exact Or.inl hm
    · obtain ⟨new, hf, hq, hr⟩ := visit_spec derive current rest
        { found := s.found ++ [(edge.1, derive current edge)],
          queue := s.queue ++ [(edge.1, derive current edge)] }
      refine ⟨(edge.1, derive current edge) :: new, ?_, ?_, forall_mem_cons.mpr ⟨?_, hr⟩⟩
      · rw [hf]; simp
      · rw [hq]; simp
      · simp only [State.nodes, hf, map_append, List.mem_append, map_cons]
        exact Or.inl (Or.inr mem_cons_self)

theorem Closed.step {current : α × ι} {queue : List (α × ι)} (h : Closed adj s)
    (hq : s.queue = current :: queue) :
    Closed adj (visit derive current (adj current.1) { s with queue := queue }) := by
  obtain ⟨new, hf, hqu, hr⟩ :=
    visit_spec derive current (adj current.1) { s with queue := queue }
  intro r hm
  rw [hf] at hm
  rw [hqu]
  rcases List.mem_append.mp hm with hm | hm
  · rcases h r hm with hin | ha
    · rcases mem_cons.mp (hq ▸ hin) with rfl | hin
      · exact Or.inr hr
      · exact Or.inl (mem_append_left _ hin)
    · refine Or.inr fun edge he => ?_
      simp only [State.nodes, hf, map_append, List.mem_append]
      exact Or.inl (ha edge he)
  · exact Or.inl (mem_append_right _ hm)

theorem Closed.loop :
    ∀ {fuel : Nat} {s : State α ι}, Closed adj s → Closed adj (loop adj derive fuel s)
  | 0, _, h => h
  | fuel + 1, s, h => by
    unfold Discovery.loop
    split
    · exact h
    · next current queue hq => exact Closed.loop (h.step hq)

theorem loop_queue (adj : α → List (α × ε)) (derive : α × ι → α × ε → ι) :
    ∀ (fuel : Nat) (s : State α ι), (loop adj derive fuel s).queue = [] ∨
      fuel + s.found.length + (loop adj derive fuel s).queue.length =
        s.queue.length + (loop adj derive fuel s).found.length
  | 0, s => by
    right
    simp only [loop]
    omega
  | fuel + 1, s => by
    unfold loop
    split
    · next hq => exact Or.inl hq
    · next current queue hq =>
      obtain ⟨new, hf, hqu, -⟩ := visit_spec derive current
        (adj current.1) { s with queue := queue }
      rcases loop_queue adj derive fuel
        (visit derive current (adj current.1) { s with queue := queue }) with h | h
      · exact Or.inl h
      · right
        rw [hf, hqu] at h
        simp only [length_append] at h
        rw [hq, length_cons]
        omega

variable (derive) in
theorem run_queue_empty {univ : List α}
    (hrt : root.1 ∈ univ) (had : ∀ a, ∀ edge ∈ adj a, edge.1 ∈ univ)
    (hf : univ.length ≤ fuel) :
    (loop adj derive fuel { found := [root], queue := [root] }).queue = [] := by
  set s : State α ι := loop adj derive fuel { found := [root], queue := [root] } with hs
  have hi : Inv adj derive root s := Inv.init.loop
  have hsb : s.nodes ⊆ univ := by
    intro a ha
    obtain ⟨r, hr, rfl⟩ := mem_map.mp ha
    rcases hi.linked r hr with rfl | ⟨p, -, edge, he, rfl⟩
    · exact hrt
    · exact had p.1 edge he
  have hl : s.found.length ≤ univ.length := by
    rw [← length_map Prod.fst]
    exact (subperm_of_subset hi.nodup hsb).length_le
  rcases loop_queue adj derive fuel { found := [root], queue := [root] } with h | h
  · exact h
  · rw [← hs] at h
    simp only [length_cons, length_nil] at h
    exact length_eq_zero_iff.mp (by omega)

theorem run_closed {univ : List α}
    (hrt : root.1 ∈ univ) (ha : ∀ a, ∀ edge ∈ adj a, edge.1 ∈ univ)
    (hf : univ.length ≤ fuel) :
    ∀ r ∈ run adj derive fuel root, ∀ edge ∈ adj r.1,
      edge.1 ∈ (run adj derive fuel root).map Prod.fst := by
  have hc : Closed adj (loop adj derive fuel { found := [root], queue := [root] }) :=
    Closed.loop fun r hr => Or.inl hr
  have hem := run_queue_empty derive hrt ha hf
  intro r hr edge he
  rcases hc r hr with hin | ha'
  · rw [hem] at hin
    exact absurd hin not_mem_nil
  · exact ha' edge he

def Adjacent (adj : α → List (α × ε)) (a b : α) : Prop := ∃ edge ∈ adj a, edge.1 = b

theorem mem_run_of_reachable (univ : List α)
    (hrt : root.1 ∈ univ) (ha : ∀ a, ∀ edge ∈ adj a, edge.1 ∈ univ)
    (hf : univ.length ≤ fuel) {b : α}
    (h : Relation.ReflTransGen (Adjacent adj) root.1 b) :
    b ∈ (run adj derive fuel root).map Prod.fst := by
  induction h with
  | refl => exact mem_map_of_mem root_mem_run
  | tail _ hs ih =>
    obtain ⟨r, hr, rfl⟩ := mem_map.mp ih
    obtain ⟨edge, he, rfl⟩ := hs
    exact run_closed hrt ha hf r hr edge he

/-! ## depths -/

section depth

variable (depth : ι → Nat)

/-- The state of a search that follows edges out of a node at depth `c`: the queue ascends from
there, and nothing is deeper than one step further. -/
structure AtDepth (c : Nat) (s : State α ι) : Prop where
  sorted : s.queue.Pairwise fun a b => depth a.2 ≤ depth b.2
  le_queue : ∀ q ∈ s.queue, c ≤ depth q.2
  found_le : ∀ r ∈ s.found, depth r.2 ≤ c + 1
  queued : ∀ q ∈ s.queue, q ∈ s.found

variable {depth} (hderive : ∀ p edge, depth (derive p edge) = depth p.2 + 1)

include hderive

variable {current : α × ι}

omit [DecidableEq α] in
theorem AtDepth.push {edge : α × ε} (h : AtDepth depth (depth current.2) s) :
    AtDepth depth (depth current.2)
      { found := s.found ++ [(edge.1, derive current edge)],
        queue := s.queue ++ [(edge.1, derive current edge)] } where
  sorted := by
    rw [pairwise_append]
    refine ⟨h.sorted, pairwise_singleton _ _, fun q hq r hr => ?_⟩
    rw [mem_singleton.mp hr, hderive]
    exact h.found_le q (h.queued q hq)
  le_queue := by
    intro q hq
    rcases List.mem_append.mp hq with hq | hq
    · exact h.le_queue q hq
    · rw [mem_singleton.mp hq, hderive]
      omega
  found_le := by
    intro r hr
    rcases List.mem_append.mp hr with hr | hr
    · exact h.found_le r hr
    · rw [mem_singleton.mp hr, hderive]
  queued := by
    intro q hq
    rcases List.mem_append.mp hq with hq | hq
    · exact mem_append_left _ (h.queued q hq)
    · exact mem_append_right _ hq

theorem AtDepth.visit :
    ∀ (edges : List (α × ε)) {s : State α ι}, AtDepth depth (depth current.2) s →
      AtDepth depth (depth current.2) (visit derive current edges s)
  | [], _, h => h
  | edge :: rest, s, h => by
    unfold Discovery.visit
    split
    · exact h.visit rest
    · exact AtDepth.visit rest (h.push hderive)

/-- The queue ascends and spans one step; the edges out of what has left it lead to nodes recorded
at most one step deeper. -/
structure Shallow (adj : α → List (α × ε)) (depth : ι → Nat) (s : State α ι) : Prop where
  sorted : s.queue.Pairwise fun a b => depth a.2 ≤ depth b.2
  span : ∀ r ∈ s.found, ∀ q ∈ s.queue, depth r.2 ≤ depth q.2 + 1
  queued : ∀ q ∈ s.queue, q ∈ s.found
  step : ∀ r ∈ s.found, r ∈ s.queue ∨
    ∀ edge ∈ adj r.1, ∃ f ∈ s.found, f.1 = edge.1 ∧ depth f.2 ≤ depth r.2 + 1

theorem Shallow.pop {queue : List (α × ι)} (h : Shallow adj depth s)
    (hq : s.queue = current :: queue) :
    Shallow adj depth (visit derive current (adj current.1) { s with queue := queue }) := by
  have hs := h.sorted
  rw [hq, pairwise_cons] at hs
  have hst : AtDepth depth (depth current.2) { s with queue := queue } :=
    { sorted := hs.2
      le_queue := hs.1
      found_le := fun r hr => h.span r hr current (hq ▸ mem_cons_self)
      queued := fun q hm => h.queued q (hq ▸ mem_cons_of_mem _ hm) }
  have hen := hst.visit hderive (adj current.1)
  obtain ⟨new, hf, hqu, hr⟩ :=
    visit_spec derive current (adj current.1) { s with queue := queue }
  refine ⟨hen.sorted, fun r hm q hm' => ?_, hen.queued, fun r hm => ?_⟩
  · have hle := hen.found_le r hm
    have hge := hen.le_queue q hm'
    omega
  · rw [hf] at hm
    rcases List.mem_append.mp hm with hm | hm
    · rcases h.step r hm with hin | ha
      · rcases mem_cons.mp (hq ▸ hin) with rfl | hin
        · refine .inr fun edge he => ?_
          obtain ⟨f, hm', hk⟩ := mem_map.mp (hr edge he)
          exact ⟨f, hm', hk, hen.found_le f hm'⟩
        · exact .inl (hqu ▸ mem_append_left _ hin)
      · refine .inr fun edge he => ?_
        obtain ⟨f, hm', hk⟩ := ha edge he
        exact ⟨f, hf ▸ mem_append_left _ hm', hk⟩
    · exact .inl (hqu ▸ mem_append_right _ hm)

theorem Shallow.loop :
    ∀ (fuel : Nat) (s : State α ι), Shallow adj depth s → Shallow adj depth (loop adj derive fuel s)
  | 0, _, h => h
  | fuel + 1, s, h => by
    unfold Discovery.loop
    split
    · exact h
    · next current queue hq => exact Shallow.loop fuel _ (h.pop hderive hq)

variable (depth) in
/-- **Depths are shortest**: across an edge they grow by at most one. -/
theorem run_depth_le {fuel : Nat} (univ : List α)
    (hrt : root.1 ∈ univ) (ha : ∀ a, ∀ edge ∈ adj a, edge.1 ∈ univ)
    (hf : univ.length ≤ fuel) :
    ∀ r ∈ run adj derive fuel root, ∀ edge ∈ adj r.1,
      ∃ f ∈ run adj derive fuel root, f.1 = edge.1 ∧ depth f.2 ≤ depth r.2 + 1 := by
  have hi : Shallow adj depth { found := [root], queue := [root] } :=
    { sorted := pairwise_singleton _ _
      span := by simp
      queued := fun _ h => h
      step := fun _ h => .inl h }
  have hs := hi.loop hderive fuel _
  have he := run_queue_empty derive hrt ha hf
  intro r hr
  rcases hs.step r hr with hin | hal
  · rw [he] at hin
    exact absurd hin not_mem_nil
  · exact hal

end depth

end Discovery
