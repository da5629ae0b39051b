import EmuFlow.Lib.Check
import EmuFlow.Lib.SortedSet
import Mathlib.Logic.Relation
import Mathlib.Order.WellFounded

/-!
# Topological ordering with a priority queue

Kahn's algorithm: nodes without open predecessors wait in a queue ordered by priority; taking the
first of them closes one predecessor entry of each of its successors. A node may be listed as a
predecessor several times.
-/

namespace ReadyQueue

open Check SortedSet List Prod Except

variable {ε α κ : Type} [DecidableEq α] [LinearOrder κ]

structure State (α κ : Type) where
  /-- The open predecessor entries of each node. -/
  indegree : α → Int
  ready : List (κ × α)
  ordered : List α

section Algorithm

variable (priority : α → Except ε κ) (successors : α → List α)

/-- Put a node without open predecessors into the queue. -/
def push (s : State α κ) (a : α) : Except ε (State α κ) := do
  let k ← priority a
  return { s with ready := s.ready ++ [(k, a)] }

/-- Close one predecessor entry of `a`. -/
def decrement (s : State α κ) (a : α) : State α κ :=
  { s with indegree := fun b => if b = a then s.indegree b - 1 else s.indegree b }

def release : List α → State α κ → Except ε (State α κ)
  | [], s => .ok s
  | a :: rest, s =>
    if (decrement s a).indegree a = 0 then do
      let s ← push priority (decrement s a) a
      release rest s
    else release rest (decrement s a)

/-- Take nodes off the queue, at most `fuel` of them. -/
def loop : Nat → State α κ → Except ε (State α κ)
  | 0, s => .ok s
  | fuel + 1, s =>
    match sortedBy fst s.ready with
    | [] => .ok s
    | (_, a) :: ready => do
      let s ← release priority (successors a)
        { s with ready := ready, ordered := s.ordered ++ [a] }
      loop fuel s

/-- The order in which the nodes are taken, from the nodes `roots` on. -/
def run (fuel : Nat) (roots : List α) (indegree : α → Int) : Except ε (List α) := do
  let s ← roots.foldlM (push priority) { indegree := indegree, ready := [], ordered := [] }
  let s ← loop priority successors fuel s
  return s.ordered

end Algorithm

variable {priority : α → Except ε κ} {successors : α → List α} {s s' : State α κ}

omit [LinearOrder κ] in
@[simp] theorem decrement_ready (a : α) : (decrement s a).ready = s.ready := rfl

omit [LinearOrder κ] in
@[simp] theorem decrement_ordered (a : α) : (decrement s a).ordered = s.ordered := rfl

omit [DecidableEq α] [LinearOrder κ] in
theorem push_eq_ok {a : α} (h : push priority s a = .ok s') :
    ∃ k, s' = { s with ready := s.ready ++ [(k, a)] } := by
  obtain ⟨k, -, h⟩ := bind_eq_ok.mp h
  exact ⟨k, (ok.inj h).symm⟩

omit [LinearOrder κ] in
theorem release_spec : ∀ {l : List α} {s s' : State α κ}, release priority l s = .ok s' →
      (∀ b ∈ l, (l.count b : Int) ≤ s.indegree b) →
      s'.ordered = s.ordered ∧ (∀ b, s'.indegree b = s.indegree b - l.count b) ∧
        ∃ new, s'.ready = s.ready ++ new ∧ (new.map snd).Nodup ∧
          ∀ b, b ∈ new.map snd ↔ b ∈ l ∧ s.indegree b = l.count b
  | [], s, s', h, _ => by
    rw [← ok.inj h]
    exact ⟨rfl, fun b => by simp, [], by simp, by simp, by simp⟩
  | a :: l, s, s', h, hc => by
    have hle : ∀ b ∈ l, (l.count b : Int) ≤ (decrement s a).indegree b := by
      intro b hbl
      have hb := hc b (mem_cons_of_mem a hbl)
      rw [count_cons] at hb
      by_cases hba : b = a
      · simp only [decrement, hba, if_true]
        simp only [hba, beq_self_eq_true, if_true] at hb
        omega
      · have ha : ¬ a = b := fun h => hba h.symm
        simp only [decrement, hba, if_false]
        simp only [beq_iff_eq, ha, if_false] at hb
        omega
    have hd : ∀ b, (decrement s a).indegree b - l.count b = s.indegree b - (a :: l).count b := by
      intro b
      rw [count_cons]
      by_cases hba : b = a
      · simp only [decrement, hba, beq_self_eq_true, if_true]
        omega
      · have ha : ¬ a = b := fun h => hba h.symm
        simp only [decrement, hba, beq_iff_eq, ha, if_false]
        omega
    unfold release at h
    by_cases hz : (decrement s a).indegree a = 0
    · rw [if_pos hz] at h
      obtain ⟨t, ht, h⟩ := bind_eq_ok.mp h
      obtain ⟨k, rfl⟩ := push_eq_ok ht
      obtain ⟨ho, hi, new, hr, hnodup, hnw⟩ := release_spec h hle
      -- `a` has no entry left, so it does not come again
      have hal : a ∉ l := by
        intro hm
        have h1 := hle a hm
        have h2 := count_pos_iff.mpr hm
        omega
      refine ⟨ho, fun b => (hi b).trans (hd b), (k, a) :: new, by simp [hr], ?_, ?_⟩
      · rw [map_cons, nodup_cons]
        exact ⟨fun hm => hal ((hnw a).mp hm).1, hnodup⟩
      · intro b
        have hb := hd b
        rw [map_cons, mem_cons, hnw b, mem_cons]
        constructor
        · rintro (rfl | ⟨hm, heq⟩)
          · have := count_eq_zero.mpr hal
            exact ⟨Or.inl rfl, by omega⟩
          · exact ⟨Or.inr hm, by dsimp only at heq; omega⟩
        · rintro ⟨rfl | hm, heq⟩
          · exact Or.inl rfl
          · exact Or.inr ⟨hm, by dsimp only; omega⟩
    · rw [if_neg hz] at h
      obtain ⟨ho, hi, new, hr, hnodup, hnw⟩ := release_spec h hle
      refine ⟨ho, fun b => (hi b).trans (hd b), new, hr, hnodup, fun b => ?_⟩
      have hb := hd b
      rw [hnw b, mem_cons]
      constructor
      · rintro ⟨hm, heq⟩
        exact ⟨Or.inr hm, by omega⟩
      · rintro ⟨rfl | hm, heq⟩
        · have hp : 0 < l.count b := by
            by_contra hn
            exact hz (by omega)
          exact ⟨count_pos_iff.mp hp, by omega⟩
        · exact ⟨hm, by omega⟩

/-! ## the invariant of a run -/

/-- The queued and the ordered nodes are distinct, and they are the nodes whose predecessors have
all been ordered. -/
structure Inv (nodes : List α) (preds : α → List α) (s : State α κ) : Prop where
  indegree_eq : ∀ a ∈ nodes, s.indegree a = (preds a).countP fun p => p ∉ s.ordered
  pushed_iff : ∀ a ∈ nodes, (a ∈ s.ordered ∨ a ∈ s.ready.map snd) ↔ s.indegree a = 0
  nodup : (s.ordered ++ s.ready.map snd).Nodup
  known : ∀ a ∈ s.ordered ++ s.ready.map snd, a ∈ nodes

section Run

variable {nodes : List α} {preds : α → List α}
  (hsucc : ∀ a b, (successors a).count b = if b ∈ nodes then (preds b).count a else 0)
include hsucc

omit [LinearOrder κ] in
theorem Inv.take {a : α} {k : κ} {ready : List (κ × α)} (h : Inv nodes preds s)
    (hq : s.ready.Perm ((k, a) :: ready))
    (hr : release priority (successors a) { s with ready := ready, ordered := s.ordered ++ [a] } =
      .ok s') : Inv nodes preds s' := by
  have hqm : (s.ready.map snd).Perm (a :: ready.map snd) := hq.map snd
  have hnd : (s.ordered ++ a :: ready.map snd).Nodup :=
    ((hqm.append_left s.ordered).nodup_iff).mp h.nodup
  have hao : a ∉ s.ordered := fun hme =>
    (nodup_append.mp hnd).2.2 a hme a mem_cons_self rfl
  have hsp : ∀ b, (preds b).countP (fun p => p ∉ s.ordered) =
      (preds b).count a + (preds b).countP fun p => p ∉ s.ordered ++ [a] := by
    intro b
    induction preds b with
    | nil => rfl
    | cons p l ih =>
      simp only [countP_cons, count_cons, ih, List.mem_append, mem_singleton,
        decide_eq_true_eq, beq_iff_eq]
      by_cases hp : p = a
      · subst hp
        simp only [hao, not_false_eq_true, if_true, or_true, not_true_eq_false, if_false]
        omega
      · simp only [hp, or_false, if_false]
        omega
  have hns : ∀ b ∈ successors a, b ∈ nodes := by
    intro b hb
    by_contra hn
    have := count_pos_iff.mpr hb
    rw [hsucc, if_neg hn] at this
    omega
  have hin : ∀ b ∈ nodes, s.indegree b - (successors a).count b =
      (preds b).countP fun p => p ∉ s.ordered ++ [a] := by
    intro b hb
    rw [h.indegree_eq b hb, hsp b, hsucc, if_pos hb]
    omega
  obtain ⟨hod, hindegree, new, hrd, hnw, hnew⟩ := release_spec hr fun b hb => by
    have := hin b (hns b hb)
    dsimp only
    omega
  -- a node released now was neither ordered nor queued, as `a` was among its predecessors
  have hfr : ∀ b ∈ new.map snd, b ∉ s.ordered ∧ b ∉ s.ready.map snd := by
    intro b hb
    obtain ⟨hme, heq⟩ := (hnew b).mp hb
    have hpo := count_pos_iff.mpr hme
    have hne : s.indegree b ≠ 0 := by
      dsimp only at heq
      omega
    exact not_or.mp fun hor => hne ((h.pushed_iff b (hns b hme)).mp hor)
  have hmm : ∀ b, b ∈ s.ready.map snd ↔ b = a ∨ b ∈ ready.map snd := by
    intro b
    rw [hqm.mem_iff, mem_cons]
  dsimp only at hod hrd
  refine ⟨fun b hb => ?_, fun b hb => ?_, ?_, fun b hb => ?_⟩
  · rw [hindegree, hod]
    exact hin b hb
  · have hb' := hin b hb
    have hps := h.pushed_iff b hb
    rw [hindegree, hod, hrd, map_append, List.mem_append, List.mem_append,
      mem_singleton, hnew b]
    rw [hmm] at hps
    constructor
    · rintro ((hbo | rfl) | (hbr | ⟨-, heq⟩))
      · have := hps.mp (Or.inl hbo)
        dsimp only
        omega
      · have := hps.mp (Or.inr (Or.inl rfl))
        dsimp only
        omega
      · have := hps.mp (Or.inr (Or.inr hbr))
        dsimp only
        omega
      · dsimp only at heq ⊢
        omega
    · intro hzr
      by_cases hbs : b ∈ successors a
      · exact Or.inr (Or.inr ⟨hbs, by dsimp only at hzr ⊢; omega⟩)
      · have hcn := count_eq_zero.mpr hbs
        rcases hps.mpr (by dsimp only at hzr; omega) with hbo | rfl | hbr
        · exact Or.inl (Or.inl hbo)
        · exact Or.inl (Or.inr rfl)
        · exact Or.inr (Or.inl hbr)
  · rw [hod, hrd, map_append, ← append_assoc, append_assoc s.ordered,
      singleton_append, nodup_append]
    refine ⟨hnd, hnw, ?_⟩
    rintro x hx y hy rfl
    obtain ⟨hxo, hxq⟩ := hfr x hy
    rcases List.mem_append.mp hx with hx | hx
    · exact hxo hx
    · exact hxq ((hmm x).mpr (mem_cons.mp hx))
  · rw [hod, hrd, map_append] at hb
    simp only [List.mem_append, mem_singleton] at hb
    rcases hb with (hb | rfl) | hb | hb
    · exact h.known b (mem_append_left _ hb)
    · exact h.known b (mem_append_right _ ((hmm b).mpr (Or.inl rfl)))
    · exact h.known b (mem_append_right _ ((hmm b).mpr (Or.inr hb)))
    · exact hns b ((hnew b).mp hb).1

theorem Inv.loop : ∀ {fuel : Nat} {s s' : State α κ}, Inv nodes preds s →
      loop priority successors fuel s = .ok s' → Inv nodes preds s'
  | 0, s, s', h, hr => ok.inj hr ▸ h
  | fuel + 1, s, s', h, hr => by
    unfold ReadyQueue.loop at hr
    split at hr
    · exact ok.inj hr ▸ h
    · next k a ready hq =>
      obtain ⟨t, ht, hr⟩ := bind_eq_ok.mp hr
      exact Inv.loop (h.take hsucc (hq ▸ (sortedBy_perm fst s.ready).symm) ht) hr

end Run

section Result

variable {nodes : List α} {preds : α → List α} {fuel : Nat} {roots out : List α}
  {indegree : α → Int}

omit [DecidableEq α] [LinearOrder κ] in
theorem foldlM_push : ∀ {l : List α} {s s' : State α κ}, l.foldlM (push priority) s = .ok s' →
      s'.indegree = s.indegree ∧ s'.ordered = s.ordered ∧
        s'.ready.map snd = s.ready.map snd ++ l
  | [], s, s', h => by
    rw [foldlM_nil] at h
    rw [← ok.inj h]
    simp
  | a :: l, s, s', h => by
    rw [foldlM_cons] at h
    obtain ⟨t, ht, h⟩ := bind_eq_ok.mp h
    obtain ⟨k, rfl⟩ := push_eq_ok ht
    obtain ⟨hi, ho, hr⟩ := foldlM_push h
    exact ⟨hi, ho, by simp [hr]⟩

omit [LinearOrder κ] in
theorem Inv.start {s : State α κ} (hindegree : ∀ a ∈ nodes, indegree a = (preds a).length)
    (hroots : ∀ a, a ∈ roots ↔ a ∈ nodes ∧ preds a = []) (hnodup : roots.Nodup)
    (hs : roots.foldlM (push priority) { indegree := indegree, ready := [], ordered := [] } =
      .ok s) : Inv nodes preds s := by
  obtain ⟨hi, ho, hr⟩ := foldlM_push hs
  simp only [map_nil, nil_append] at hi ho hr
  refine ⟨fun a ha => ?_, fun a ha => ?_, ?_, fun a ha => ?_⟩
  · rw [hi, ho, hindegree a ha]
    simp
  · rw [ho, hr, hi, hindegree a ha, hroots]
    simp [ha]
  · rw [ho, hr]
    exact hnodup
  · rw [ho, hr] at ha
    exact ((hroots a).mp ha).1

theorem run_spec (hsucc : ∀ a b, (successors a).count b = if b ∈ nodes then
    (preds b).count a else 0)
    (hindegree : ∀ a ∈ nodes, indegree a = (preds a).length)
    (hroots : ∀ a, a ∈ roots ↔ a ∈ nodes ∧ preds a = []) (hnodup : roots.Nodup)
    (h : run priority successors fuel roots indegree = .ok out) :
    out.Nodup ∧ ∀ a ∈ out, a ∈ nodes := by
  obtain ⟨s, hs, h⟩ := bind_eq_ok.mp h
  obtain ⟨s', hs', h⟩ := bind_eq_ok.mp h
  cases h
  have he := (Inv.start hindegree hroots hnodup hs).loop hsucc hs'
  exact ⟨(nodup_append.mp he.nodup).1, fun a ha => he.known a (mem_append_left _ ha)⟩

theorem exists_run {P : α → Prop} (hp : ∀ a, P a → ∃ k, priority a = .ok k)
    (hroots : ∀ a ∈ roots, P a) (hsucc : ∀ a, ∀ b ∈ successors a, P b) :
    ∃ out, run priority successors fuel roots indegree = .ok out := by
  have hps : ∀ a, P a → ∀ s : State α κ, ∃ s', push priority s a = .ok s' := fun a ha s =>
    exists_bind_eq_ok.mpr ((hp a ha).imp fun _ hk => ⟨hk, _, rfl⟩)
  have hr : ∀ (l : List α), (∀ b ∈ l, P b) → ∀ s : State α κ,
      ∃ s', release priority l s = .ok s' := by
    intro l
    induction l with
    | nil => exact fun _ s => ⟨s, rfl⟩
    | cons a l ih =>
      intro hl s
      obtain ⟨ha, hl⟩ := forall_mem_cons.mp hl
      unfold release
      split
      · obtain ⟨t, ht⟩ := hps a ha (decrement s a)
        obtain ⟨s', hs'⟩ := ih hl t
        exact ⟨s', bind_eq_ok.mpr ⟨t, ht, hs'⟩⟩
      · exact ih hl _
  have hlp : ∀ (fuel : Nat) (s : State α κ), ∃ s', loop priority successors fuel s = .ok s' := by
    intro fuel
    induction fuel with
    | zero => exact fun s => ⟨s, rfl⟩
    | succ fuel ih =>
      intro s
      unfold loop
      split
      · exact ⟨s, rfl⟩
      · next k a ready _ =>
        obtain ⟨t, ht⟩ := hr (successors a) (hsucc a)
          { s with ready := ready, ordered := s.ordered ++ [a] }
        obtain ⟨s', hs'⟩ := ih t
        exact ⟨s', bind_eq_ok.mpr ⟨t, ht, hs'⟩⟩
  obtain ⟨s, hs⟩ := (foldlM_isOk_iff fun a ha t =>
    iff_of_true (hps a (hroots a ha) t) (hroots a ha)).mpr hroots
  obtain ⟨s', hs'⟩ := hlp fuel s
  exact ⟨s'.ordered, bind_eq_ok.mpr ⟨s, hs, bind_eq_ok.mpr ⟨s', hs', rfl⟩⟩⟩

/-- Every queued or ordered node has a priority. -/
def Prioritized (priority : α → Except ε κ) (s : State α κ) : Prop :=
  ∀ a ∈ s.ordered ++ s.ready.map snd, ∃ k, priority a = .ok k

omit [DecidableEq α] [LinearOrder κ] in
theorem Prioritized.push {a : α} (h : Prioritized priority s)
    (hr : push priority s a = .ok s') : Prioritized priority s' := by
  obtain ⟨k, hk, hr⟩ := bind_eq_ok.mp hr
  rw [← ok.inj hr]
  intro b hb
  rw [map_append, ← append_assoc, List.mem_append] at hb
  rcases hb with hb | hb
  · exact h b hb
  · rw [mem_singleton.mp hb]
    exact ⟨k, hk⟩

omit [LinearOrder κ] in
theorem Prioritized.release : ∀ {l : List α} {s s' : State α κ}, Prioritized priority s →
      release priority l s = .ok s' → Prioritized priority s'
  | [], s, s', h, hr => ok.inj hr ▸ h
  | a :: l, s, s', h, hr => by
    have hd : Prioritized priority (decrement s a) := h
    unfold ReadyQueue.release at hr
    split at hr
    · obtain ⟨t, ht, hr⟩ := bind_eq_ok.mp hr
      exact Prioritized.release (hd.push ht) hr
    · exact Prioritized.release hd hr

theorem Prioritized.loop : ∀ {fuel : Nat} {s s' : State α κ}, Prioritized priority s →
      loop priority successors fuel s = .ok s' → Prioritized priority s'
  | 0, s, s', h, hr => ok.inj hr ▸ h
  | fuel + 1, s, s', h, hr => by
    unfold ReadyQueue.loop at hr
    split at hr
    · exact ok.inj hr ▸ h
    · next k a ready hq =>
      obtain ⟨t, ht, hr⟩ := bind_eq_ok.mp hr
      have hp : s.ready.Perm ((k, a) :: ready) := hq ▸ (sortedBy_perm fst s.ready).symm
      refine Prioritized.loop (Prioritized.release (fun b hb => h b ?_) ht) hr
      rw [((hp.map snd).append_left s.ordered).mem_iff]
      simpa using hb

theorem run_priority (h : run priority successors fuel roots indegree = .ok out) :
    ∀ a ∈ out, ∃ k, priority a = .ok k := by
  obtain ⟨s, hs, h⟩ := bind_eq_ok.mp h
  obtain ⟨s', hs', h⟩ := bind_eq_ok.mp h
  have hst : Prioritized priority s :=
    foldlM_invariant (Prioritized priority) (fun _ _ _ _ ht hp => ht.push hp)
      (fun a ha => absurd ha not_mem_nil) hs
  rw [← ok.inj h]
  exact fun a ha => hst.loop hs' a (mem_append_left _ ha)

def Sorted (preds : α → List α) (ordered : List α) : Prop :=
  ∀ before a after, ordered = before ++ a :: after → ∀ p ∈ preds a, p ∈ before

omit [DecidableEq α] in
theorem Sorted.snoc {ordered : List α} {a : α} (h : Sorted preds ordered)
    (ha : ∀ p ∈ preds a, p ∈ ordered) : Sorted preds (ordered ++ [a]) := by
  intro before b after heq p hp
  rcases eq_nil_or_concat after with rfl | ⟨after', c, rfl⟩
  · obtain ⟨rfl, hab⟩ := append_inj' heq rfl
    obtain rfl : a = b := by simpa using hab
    exact ha p hp
  · have heq' : ordered ++ [a] = (before ++ b :: after') ++ [c] := by simpa using heq
    obtain ⟨ho, -⟩ := append_inj' heq' rfl
    exact h before b after' ho p hp

theorem Inv.sorted_loop (hsucc : ∀ a b, (successors a).count b =
    if b ∈ nodes then (preds b).count a else 0) :
    ∀ {fuel : Nat} {s s' : State α κ}, Inv nodes preds s → Sorted preds s.ordered →
      ReadyQueue.loop priority successors fuel s = .ok s' →
      Sorted preds s'.ordered ∧ (s'.ready = [] ∨ s'.ordered.length = s.ordered.length + fuel)
  | 0, s, s', _, hs, hr => by
    rw [← ok.inj hr]
    exact ⟨hs, Or.inr rfl⟩
  | fuel + 1, s, s', h, hs, hr => by
    unfold ReadyQueue.loop at hr
    split at hr
    · next hq =>
      rw [← ok.inj hr]
      have hln : (sortedBy fst s.ready).length = s.ready.length := length_sortedBy
      rw [hq] at hln
      exact ⟨hs, Or.inl (length_eq_zero_iff.mp hln.symm)⟩
    · next k a ready hq =>
      obtain ⟨t, ht, hr⟩ := bind_eq_ok.mp hr
      have hpr : s.ready.Perm ((k, a) :: ready) := hq ▸ (sortedBy_perm fst s.ready).symm
      have hnx := h.take hsucc hpr ht
      have hqd : a ∈ s.ready.map snd :=
        mem_map.mpr ⟨(k, a), hpr.mem_iff.mpr mem_cons_self, rfl⟩
      have hnd : a ∈ nodes := h.known a (mem_append_right _ hqd)
      have hzr := (h.pushed_iff a hnd).mp (Or.inr hqd)
      rw [h.indegree_eq a hnd] at hzr
      -- a queued node has no open predecessor
      have hcl : ∀ p ∈ preds a, p ∈ s.ordered := by
        intro p hp
        by_contra hn
        have hps : 0 < (preds a).countP fun p => p ∉ s.ordered :=
          countP_pos_iff.mpr ⟨p, hp, by simpa using hn⟩
        omega
      have hor : t.ordered = s.ordered ++ [a] := by
        refine (release_spec ht fun b hb => ?_).1
        have hb' : b ∈ nodes := by
          by_contra hn
          have hps := count_pos_iff.mpr hb
          rw [hsucc, if_neg hn] at hps
          omega
        have hao : a ∉ s.ordered := by
          intro hmm
          exact (nodup_append.mp h.nodup).2.2 a hmm a hqd rfl
        have hcn : (preds b).count a ≤ (preds b).countP fun p => p ∉ s.ordered := by
          rw [List.count]
          refine countP_mono_left fun p _ hpa => ?_
          rw [beq_iff_eq] at hpa
          simpa [hpa] using hao
        have := h.indegree_eq b hb'
        rw [hsucc, if_pos hb']
        dsimp only
        omega
      obtain ⟨hsr, hln⟩ := Inv.sorted_loop hsucc hnx (hor ▸ hs.snoc hcl) hr
      refine ⟨hsr, hln.imp_right fun hln => ?_⟩
      rw [hln, hor, length_append, length_singleton]
      omega

section Complete

variable (hsucc : ∀ a b, (successors a).count b = if b ∈ nodes then (preds b).count a else 0)
  (hindegree : ∀ a ∈ nodes, indegree a = (preds a).length)
  (hroots : ∀ a, a ∈ roots ↔ a ∈ nodes ∧ preds a = []) (hnodup : roots.Nodup)
  (hfuel : nodes.length ≤ fuel)
  (h : run priority successors fuel roots indegree = .ok out)
include hsucc hindegree hroots hnodup h

/-- The order is topological; with enough fuel a node is missing only for a missing predecessor. -/
theorem run_sorted : Sorted preds out ∧
    (nodes.length ≤ fuel → ∀ a ∈ nodes, (∀ p ∈ preds a, p ∈ out) → a ∈ out) := by
  obtain ⟨s, hs, h⟩ := bind_eq_ok.mp h
  obtain ⟨s', hs', h⟩ := bind_eq_ok.mp h
  cases h
  have hst := Inv.start hindegree hroots hnodup hs
  have ho := (foldlM_push hs).2.1
  have hsr : Sorted preds s.ordered := by
    rw [ho]
    intro before a after heq
    simp at heq
  obtain ⟨hsd, hl⟩ := hst.sorted_loop hsucc hsr hs'
  have he := hst.loop hsucc hs'
  refine ⟨hsd, fun hfuel a ha hpr => ?_⟩
  have hem : s'.ready = [] := by
    rcases hl with hl | hl
    · exact hl
    · have hle : (s'.ordered ++ s'.ready.map snd).length ≤ nodes.length :=
        (subperm_of_subset he.nodup he.known).length_le
      rw [ho, length_nil] at hl
      rw [length_append, length_map] at hle
      exact length_eq_zero_iff.mp (by omega)
  have hz : s'.indegree a = 0 := by
    rw [he.indegree_eq a ha]
    have : (preds a).countP (fun p => p ∉ s'.ordered) = 0 := by
      rw [countP_eq_zero]
      intro p hp
      simpa using hpr p hp
    omega
  rcases (he.pushed_iff a ha).mpr hz with hm | hm
  · exact hm
  · rw [hem] at hm
    exact absurd hm not_mem_nil

include hfuel in
theorem run_all_iff (hpr : ∀ a ∈ nodes, ∀ p ∈ preds a, p ∈ nodes) :
    (∀ a ∈ nodes, a ∈ out) ↔ ∀ a, ¬ Relation.TransGen (fun p b => b ∈ nodes ∧ p ∈ preds b) a a := by
  obtain ⟨hsr, hms⟩ := run_sorted hsucc hindegree hroots hnodup h
  constructor
  · intro hal a hcy
    -- along a chain of predecessors the position in the order grows
    have hlt : ∀ p b, b ∈ nodes ∧ p ∈ preds b → out.idxOf p < out.idxOf b := by
      rintro p b ⟨hb, hp⟩
      obtain ⟨before, after, hsp, hfr⟩ := eq_append_cons_of_mem (hal b hb)
      have hmm := hsr before b after hsp p hp
      have hid : out.idxOf b = before.length := by
        rw [hsp, idxOf_append_of_notMem hfr, idxOf_cons_self, Nat.add_zero]
      rw [hid, hsp, idxOf_append_of_mem hmm]
      exact idxOf_lt_length_of_mem hmm
    have hch : ∀ b, Relation.TransGen (fun p b => b ∈ nodes ∧ p ∈ preds b) a b →
        out.idxOf a < out.idxOf b := by
      intro b hb
      induction hb with
      | single hst => exact hlt _ _ hst
      | tail _ hst ih => exact ih.trans (hlt _ _ hst)
    exact absurd (hch a hcy) (lt_irrefl _)
  · intro hac
    let R : {x // x ∈ nodes} → {x // x ∈ nodes} → Prop :=
      Relation.TransGen fun p b => p.1 ∈ preds b.1
    have hmp : ∀ x y, R x y → Relation.TransGen (fun p b => b ∈ nodes ∧ p ∈ preds b) x.1 y.1 := by
      intro x y hxy
      induction hxy with
      | single hst => exact .single ⟨Subtype.property _, hst⟩
      | tail _ hst ih => exact ih.tail ⟨Subtype.property _, hst⟩
    have htr : IsTrans {x // x ∈ nodes} R := ⟨fun _ _ _ => Relation.TransGen.trans⟩
    have hir : Std.Irrefl R := ⟨fun x hx => hac x.1 (hmp x x hx)⟩
    have hwf : WellFounded R := Finite.wellFounded_of_trans_of_irrefl R
    intro a ha
    have hal : ∀ x : {x // x ∈ nodes}, x.1 ∈ out := fun x =>
      hwf.induction x fun y ih => hms hfuel y.1 y.2 fun p hp =>
        ih ⟨p, hpr y.1 y.2 p hp⟩ (.single hp)
    exact hal ⟨a, ha⟩

end Complete

end Result

end ReadyQueue
