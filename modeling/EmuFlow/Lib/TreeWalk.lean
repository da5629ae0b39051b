import EmuFlow.Lib.Check
import Mathlib.Data.List.Nodup
import Mathlib.Tactic

/-!
# Breadth-first walks that insist on a tree

A walk follows the edges out of each node it reaches and fails with the first node it would reach a
second time. `derive` computes what is known of a node from what is known of the node before it.
-/

namespace TreeWalk

open Check List Except

variable {α ε ι : Type}

structure State (α ε ι : Type) where
  seen : List α
  queue : List (α × ι)
  out : List (ι × ε)

section Walk

variable [DecidableEq α] (edges : α → List ε) (target : ε → α) (derive : ι → ε → ι)

def expand (info : ι) : List ε → State α ε ι → Except α (State α ε ι)
  | [], s => .ok s
  | e :: rest, s =>
    if target e ∈ s.seen then .error (target e)
    else expand info rest
      { seen := s.seen ++ [target e]
        queue := s.queue ++ [(target e, derive info e)]
        out := s.out ++ [(info, e)] }

/-- Drain the queue, for at most `fuel` nodes. -/
def loop : Nat → State α ε ι → Except α (State α ε ι)
  | 0, s => .ok s
  | fuel + 1, s =>
    match s.queue with
    | [] => .ok s
    | (a, info) :: queue => do
      let s ← expand target derive info (edges a) { s with queue := queue }
      loop fuel s

def start (root : α) (init : ι) : State α ε ι :=
  { seen := [root], queue := [(root, init)], out := [] }

/-- The edges followed from `root`. -/
def walk (fuel : Nat) (root : α) (init : ι) : Except α (List (ι × ε)) := do
  let s ← loop edges target derive fuel (start root init)
  return s.out

end Walk

/-! ## ordered trees -/

variable (source target : ε → α) (derive : ι → ε → ι) (root : α) (init : ι)

/-- `a` is the root or the target of a listed edge, and `info` is what is known of it. -/
def Reached (out : List (ι × ε)) (a : α) (info : ι) : Prop :=
  (a = root ∧ info = init) ∨ ∃ x ∈ out, target x.2 = a ∧ derive x.1 x.2 = info

/-- `x` extends the tree `out` by one new node. -/
def Extends (out : List (ι × ε)) (x : ι × ε) : Prop :=
  Reached target derive root init out (source x.2) x.1 ∧
    target x.2 ≠ root ∧ ∀ y ∈ out, target y.2 ≠ target x.2

def Ordered (out : List (ι × ε)) : Prop :=
  ∀ pre x post, out = pre ++ x :: post → Extends source target derive root init pre x

variable {source target derive root init}

theorem Reached.mono {out out' : List (ι × ε)} {a : α} {info : ι}
    (h : Reached target derive root init out a info) (hs : ∀ x ∈ out, x ∈ out') :
    Reached target derive root init out' a info := by
  rcases h with h | ⟨x, hx, h⟩
  · exact Or.inl h
  · exact Or.inr ⟨x, hs x hx, h⟩

theorem Ordered.nil : Ordered source target derive root init [] := by
  intro pre x post h
  exact absurd h (by simp)

section

variable {out : List (ι × ε)} {x : ι × ε} (h : Ordered source target derive root init out)
include h

theorem Ordered.snoc (hx : Extends source target derive root init out x) :
    Ordered source target derive root init (out ++ [x]) := by
  intro pre y post heq
  rcases eq_nil_or_concat post with rfl | ⟨post', z, rfl⟩
  · obtain ⟨rfl, hl⟩ := append_inj' heq rfl
    rw [← singleton_inj.mp hl]
    exact hx
  · rw [concat_eq_append, ← cons_append, ← append_assoc] at heq
    obtain ⟨hp, -⟩ := append_inj' heq rfl
    exact h pre y post' hp

theorem Ordered.extends_of_mem (hx : x ∈ out) :
    ∃ pre post, out = pre ++ x :: post ∧ Extends source target derive root init pre x := by
  obtain ⟨pre, post, rfl⟩ := append_of_mem hx
  exact ⟨pre, post, rfl, h pre x post rfl⟩

theorem Ordered.target_ne_root (hx : x ∈ out) : target x.2 ≠ root := by
  obtain ⟨pre, post, -, he⟩ := h.extends_of_mem hx
  exact he.2.1

end

theorem Ordered.nodup_targets : ∀ {out : List (ι × ε)}, Ordered source target derive root init out →
      (out.map fun x => target x.2).Nodup := by
  intro out
  induction out using reverseRecOn with
  | nil => intro _; simp
  | append_singleton out x ih =>
    intro h
    have hp : Ordered source target derive root init out := by
      intro pre y post heq
      exact h pre y (post ++ [x]) (by rw [heq]; simp)
    rw [map_append, nodup_append]
    refine ⟨ih hp, by simp, ?_⟩
    intro a ha b hb hab
    obtain ⟨y, hy, rfl⟩ := mem_map.mp ha
    simp only [map_cons, map_nil, mem_singleton] at hb
    exact (h out x [] rfl).2.2 y hy (hab.trans hb)

section Invariant

variable [DecidableEq α] {edges : α → List ε} {s : State α ε ι}

structure Inv (edges : α → List ε) (source target : ε → α) (derive : ι → ε → ι) (root : α)
    (init : ι) (s : State α ε ι) : Prop where
  seen_eq : s.seen = root :: s.out.map fun x => target x.2
  ordered : Ordered source target derive root init s.out
  own : ∀ x ∈ s.out, x.2 ∈ edges (source x.2)
  queued : ∀ q ∈ s.queue, Reached target derive root init s.out q.1 q.2

omit [DecidableEq α] in
theorem Inv.start : Inv edges source target derive root init (start root init) where
  seen_eq := rfl
  ordered := Ordered.nil
  own := fun _ hx => absurd hx not_mem_nil
  queued := by
    intro q hq
    rw [mem_singleton.mp hq]
    exact Or.inl ⟨rfl, rfl⟩

theorem Inv.expand {a : α} {info : ι} (hsource : ∀ a, ∀ e ∈ edges a, source e = a) :
    ∀ {es : List ε} {s s' : State α ε ι}, Inv edges source target derive root init s →
      Reached target derive root init s.out a info → (∀ e ∈ es, e ∈ edges a) →
      expand target derive info es s = .ok s' → Inv edges source target derive root init s'
  | [], s, s', h, _, _, he => ok.inj he ▸ h
  | e :: es, s, s', h, ha, hs, he => by
    unfold TreeWalk.expand at he
    split at he
    · exact absurd he (by simp)
    · next hn =>
      have hm : e ∈ edges a := hs e mem_cons_self
      have hse : source e = a := hsource a e hm
      rw [h.seen_eq, mem_cons, not_or] at hn
      have hex : Extends source target derive root init s.out (info, e) := by
        refine ⟨by rw [hse]; exact ha, hn.1, fun y hy heq => hn.2 ?_⟩
        exact mem_map.mpr ⟨y, hy, heq⟩
      have hg : ∀ x ∈ s.out, x ∈ s.out ++ [(info, e)] := fun x hx => mem_append_left _ hx
      refine Inv.expand hsource ?_ (ha.mono hg)
        (fun e' he' => hs e' (mem_cons_of_mem _ he')) he
      refine ⟨by simp [h.seen_eq], h.ordered.snoc hex, ?_, ?_⟩
      · intro x hx
        rcases List.mem_append.mp hx with hx | hx
        · exact h.own x hx
        · rw [mem_singleton.mp hx]
          exact hse.symm ▸ hm
      · intro q hq
        rcases List.mem_append.mp hq with hq | hq
        · exact (h.queued q hq).mono hg
        · rw [mem_singleton.mp hq]
          exact Or.inr ⟨(info, e), mem_append_right _ (mem_singleton_self _), rfl, rfl⟩

theorem Inv.loop (hsource : ∀ a, ∀ e ∈ edges a, source e = a) :
    ∀ {fuel : Nat} {s s' : State α ε ι}, Inv edges source target derive root init s →
      loop edges target derive fuel s = .ok s' → Inv edges source target derive root init s'
  | 0, s, s', h, he => ok.inj he ▸ h
  | fuel + 1, s, s', h, he => by
    unfold TreeWalk.loop at he
    split at he
    · exact ok.inj he ▸ h
    · next a info queue hq =>
      obtain ⟨t, ht, he⟩ := bind_eq_ok.mp he
      have hc : Reached target derive root init s.out a info :=
        h.queued (a, info) (hq ▸ mem_cons_self)
      have hp : Inv edges source target derive root init { s with queue := queue } :=
        { h with queued := fun q hmm => h.queued q (hq ▸ mem_cons_of_mem _ hmm) }
      exact Inv.loop hsource (hp.expand hsource hc (fun _ hm => hm) ht) he

/-! ## nothing is missed -/

def Closed (edges : α → List ε) (s : State α ε ι) : Prop :=
  ∀ a ∈ s.seen, a ∈ s.queue.map Prod.fst ∨ ∀ e ∈ edges a, e ∈ s.out.map Prod.snd

theorem expand_spec {info : ι} :
    ∀ {es : List ε} {s s' : State α ε ι}, expand target derive info es s = .ok s' →
      s'.out = s.out ++ es.map (fun e => (info, e)) ∧ s'.seen = s.seen ++ es.map target ∧
        s'.queue = s.queue ++ es.map (fun e => (target e, derive info e))
  | [], s, s', h => by
    rw [← ok.inj h]
    simp
  | e :: es, s, s', h => by
    unfold expand at h
    split at h
    · exact absurd h (by simp)
    · obtain ⟨ho, hs, hq⟩ := expand_spec h
      simp [ho, hs, hq]

theorem Closed.step {a : α} {info : ι} {queue : List (α × ι)} {s' : State α ε ι}
    (h : Closed edges s) (hq : s.queue = (a, info) :: queue)
    (he : expand target derive info (edges a) { s with queue := queue } = .ok s') :
    Closed edges s' := by
  obtain ⟨ho, hs, hqu⟩ := expand_spec he
  intro b hb
  rw [hs] at hb
  simp only [hqu, ho, map_append, List.mem_append, map_map]
  rcases List.mem_append.mp hb with hb | hb
  · rcases h b hb with hin | ha
    · rw [hq, map_cons] at hin
      rcases mem_cons.mp hin with rfl | hin
      · exact Or.inr fun e hm => Or.inr (mem_map.mpr ⟨e, hm, rfl⟩)
      · exact Or.inl (Or.inl hin)
    · exact Or.inr fun e hm => Or.inl (ha e hm)
  · obtain ⟨e, hm, rfl⟩ := mem_map.mp hb
    exact Or.inl (Or.inr (mem_map.mpr ⟨e, hm, rfl⟩))

theorem loop_closed : ∀ {fuel : Nat} {s s' : State α ε ι}, Closed edges s →
      loop edges target derive fuel s = .ok s' → Closed edges s'
  | 0, s, s', h, he => ok.inj he ▸ h
  | fuel + 1, s, s', h, he => by
    unfold loop at he
    split at he
    · exact ok.inj he ▸ h
    · next a info queue hq =>
      obtain ⟨t, ht, he⟩ := bind_eq_ok.mp he
      exact loop_closed (h.step hq ht) he

theorem loop_queue : ∀ {fuel : Nat} {s s' : State α ε ι}, loop edges target derive fuel s = .ok s' →
      s'.queue = [] ∨ fuel + s.seen.length + s'.queue.length = s.queue.length + s'.seen.length
  | 0, s, s', h => by
    rw [← ok.inj h]
    right
    omega
  | fuel + 1, s, s', h => by
    unfold loop at h
    split at h
    · next hq =>
      rw [← ok.inj h]
      exact Or.inl hq
    · next a info queue hq =>
      obtain ⟨t, ht, h⟩ := bind_eq_ok.mp h
      obtain ⟨-, hs, hqu⟩ := expand_spec ht
      rcases loop_queue h with h | h
      · exact Or.inl h
      · right
        rw [hs, hqu] at h
        simp only [length_append, length_map] at h
        rw [hq, length_cons]
        omega

end Invariant

section Result

variable [DecidableEq α] {edges : α → List ε} {fuel : Nat} {out : List (ι × ε)}
  (hsource : ∀ a, ∀ e ∈ edges a, source e = a)
  (h : walk edges target derive fuel root init = .ok out)
include hsource h

theorem walk_ordered : Ordered source target derive root init out := by
  obtain ⟨s, hs, h⟩ := bind_eq_ok.mp h
  rw [← ok.inj h]
  exact (Inv.loop hsource Inv.start hs).ordered

theorem walk_own : ∀ x ∈ out, x.2 ∈ edges (source x.2) := by
  obtain ⟨s, hs, h⟩ := bind_eq_ok.mp h
  rw [← ok.inj h]
  exact (Inv.loop hsource Inv.start hs).own

/-- It takes every edge of a node it reaches. -/
theorem walk_closed {all : List ε} (hal : ∀ a, ∀ e ∈ edges a, e ∈ all)
    (hf : all.length + 1 ≤ fuel) {a : α} {info : ι}
    (ha : Reached target derive root init out a info) : ∀ e ∈ edges a, e ∈ out.map Prod.snd := by
  obtain ⟨s, hs, h⟩ := bind_eq_ok.mp h
  cases h
  have hi : Inv edges source target derive root init s := Inv.loop hsource Inv.start hs
  have hc : Closed edges s := by
    refine loop_closed ?_ hs
    intro b hb
    exact Or.inl hb
  have hnodup : (s.out.map Prod.snd).Nodup := by
    have hnd : ((s.out.map Prod.snd).map target).Nodup := by
      rw [map_map]
      exact hi.ordered.nodup_targets
    exact hnd.of_map
  have hl : s.out.length ≤ all.length := by
    rw [← length_map Prod.snd]
    refine (subperm_of_subset hnodup ?_).length_le
    intro e he
    obtain ⟨x, hx, rfl⟩ := mem_map.mp he
    exact hal _ _ (hi.own x hx)
  have hem : s.queue = [] := by
    rcases loop_queue hs with hq | hq
    · exact hq
    · rw [hi.seen_eq] at hq
      simp only [start, length_cons, length_nil, length_map] at hq
      exact length_eq_zero_iff.mp (by omega)
  have hsn : a ∈ s.seen := by
    rw [hi.seen_eq]
    rcases ha with ⟨rfl, -⟩ | ⟨x, hx, rfl, -⟩
    · exact mem_cons_self
    · exact mem_cons_of_mem _ (mem_map.mpr ⟨x, hx, rfl⟩)
  rcases hc a hsn with hq | hal
  · rw [hem] at hq
    exact absurd hq not_mem_nil
  · exact hal

end Result

/-! ## walks over a tree -/

section Tree

variable [DecidableEq α] {edges : α → List ε} {s : State α ε ι}

omit [DecidableEq α] in
/-- What the walk over a tree keeps: the nodes in the queue have not been expanded. -/
structure Fresh (edges : α → List ε) (source target : ε → α) (root : α) (s : State α ε ι) :
    Prop where
  seen_eq : s.seen = root :: s.out.map fun x => target x.2
  own : ∀ x ∈ s.out, x.2 ∈ edges (source x.2)
  expanded : ∀ x ∈ s.out, source x.2 ∈ s.seen ∧ source x.2 ∉ s.queue.map Prod.fst
  queue_seen : ∀ a ∈ s.queue.map Prod.fst, a ∈ s.seen
  queue_nodup : (s.queue.map Prod.fst).Nodup

omit [DecidableEq α] in
theorem Fresh.start : Fresh edges source target root (start root init) where
  seen_eq := rfl
  own _ hx := absurd hx not_mem_nil
  expanded _ hx := absurd hx not_mem_nil
  queue_seen _ ha := ha
  queue_nodup := nodup_singleton root

theorem expand_ok (derive : ι → ε → ι) (info : ι) :
    ∀ {es : List ε} {s : State α ε ι}, (∀ e ∈ es, target e ∉ s.seen) → (es.map target).Nodup →
      ∃ s', expand target derive info es s = .ok s'
  | [], s, _, _ => ⟨s, rfl⟩
  | e :: es, s, hn, hnodup => by
    rw [map_cons, nodup_cons] at hnodup
    unfold expand
    rw [if_neg (hn e mem_cons_self)]
    refine expand_ok derive info (fun e' he' => ?_) hnodup.2
    rw [List.mem_append, mem_singleton, not_or]
    refine ⟨hn e' (mem_cons_of_mem _ he'), fun heq => hnodup.1 ?_⟩
    exact heq ▸ mem_map_of_mem he'

variable (hsource : ∀ a, ∀ e ∈ edges a, source e = a) (hnodup : ∀ a, (edges a).Nodup)
  (hroot : ∀ a, ∀ e ∈ edges a, target e ≠ root)
  (hunique : ∀ a b, ∀ e ∈ edges a, ∀ e' ∈ edges b, target e = target e' → e = e')
include hsource hnodup hroot hunique

theorem Fresh.step (derive : ι → ε → ι) {a : α} {info : ι} {queue : List (α × ι)}
    (h : Fresh edges source target root s) (hq : s.queue = (a, info) :: queue) :
    ∃ s', expand target derive info (edges a) { s with queue := queue } = .ok s' ∧
      Fresh edges source target root s' := by
  have hqu := h.queue_nodup
  rw [hq, map_cons, nodup_cons] at hqu
  have ha : a ∈ s.seen := h.queue_seen a (by rw [hq]; exact mem_cons_self)
  have hnw : ∀ e ∈ edges a, target e ∉ s.seen := by
    intro e he hsn
    rw [h.seen_eq, mem_cons] at hsn
    rcases hsn with heq | hmm
    · exact hroot a e he heq
    · obtain ⟨x, hx, heq⟩ := mem_map.mp hmm
      have hxe : x.2 = e := hunique _ _ _ (h.own x hx) _ he heq
      refine (h.expanded x hx).2 ?_
      rw [hxe, hsource a e he, hq]
      exact mem_cons_self
  have htr : ((edges a).map target).Nodup :=
    (hnodup a).map_on fun e he e' he' heq => hunique a a e he e' he' heq
  obtain ⟨s', hs'⟩ := @expand_ok _ _ _ target _ derive info _
    { s with queue := queue } hnw htr
  obtain ⟨hot, hsn, hqu'⟩ := expand_spec hs'
  have hqd : s'.queue.map Prod.fst = queue.map Prod.fst ++ (edges a).map target := by
    rw [hqu', map_append, map_map]
    rfl
  refine ⟨s', hs', ?_, ?_, ?_, ?_, ?_⟩
  · simp [hsn, hot, h.seen_eq]
  · intro x hx
    rw [hot, List.mem_append] at hx
    rcases hx with hx | hx
    · exact h.own x hx
    · obtain ⟨e, he, rfl⟩ := mem_map.mp hx
      rw [hsource a e he]
      exact he
  · intro x hx
    rw [hot, List.mem_append] at hx
    rw [hqd, hsn, List.mem_append, List.mem_append, not_or]
    have hol : source x.2 ∈ s.seen ∧ source x.2 ∉ queue.map Prod.fst := by
      rcases hx with hx | hx
      · obtain ⟨hin, hot⟩ := h.expanded x hx
        rw [hq, map_cons, mem_cons, not_or] at hot
        exact ⟨hin, hot.2⟩
      · obtain ⟨e, he, rfl⟩ := mem_map.mp hx
        rw [hsource a e he]
        exact ⟨ha, hqu.1⟩
    refine ⟨Or.inl hol.1, hol.2, fun hmm => ?_⟩
    obtain ⟨e, he, heq⟩ := mem_map.mp hmm
    exact hnw e he (heq ▸ hol.1)
  · intro b hb
    rw [hqd, List.mem_append] at hb
    rw [hsn, List.mem_append]
    refine hb.imp_left fun hb => h.queue_seen b ?_
    rw [hq]
    exact mem_cons_of_mem _ hb
  · rw [hqd, nodup_append]
    refine ⟨hqu.2, htr, fun b hb c hc heq => ?_⟩
    obtain ⟨e, he, rfl⟩ := mem_map.mp hc
    refine hnw e he (heq ▸ h.queue_seen b ?_)
    rw [hq]
    exact mem_cons_of_mem _ hb

theorem loop_ok (derive : ι → ε → ι) : ∀ {fuel : Nat} {s : State α ε ι},
    Fresh edges source target root s → ∃ s', loop edges target derive fuel s = .ok s'
  | 0, s, _ => ⟨s, rfl⟩
  | fuel + 1, s, h => by
    unfold loop
    split
    · exact ⟨s, rfl⟩
    · next a info queue hq =>
      obtain ⟨t, ht, hf⟩ := h.step hsource hnodup hroot hunique derive hq
      rw [ht]
      exact loop_ok derive hf

/-- A walk that meets no node twice ends without an error. -/
theorem walk_ok (fuel : Nat) : ∃ out, walk edges target derive fuel root init = .ok out := by
  have hst : Fresh edges source target root (start root init) := Fresh.start
  obtain ⟨s, hs⟩ : ∃ s, loop edges target derive fuel (start root init) = .ok s :=
    loop_ok hsource hnodup hroot hunique derive hst
  exact ⟨s.out, by rw [walk, hs]; rfl⟩

end Tree

end TreeWalk
