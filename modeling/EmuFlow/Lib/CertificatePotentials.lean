import EmuFlow.Lib.ShortestPath
import EmuFlow.Lib.Check

/-!
# Potentials of a residual graph

All nodes start at zero and wait in the queue; a node taken from it lowers the ends of its edges. A
label remembers how many edges it came over, and as many edges as nodes mean a negative cycle. With
prices that no edge undercuts this never happens: the nodes a label came over are distinct, since a
second visit would have to lower the first one's label around a cycle.
-/

namespace ResidualGraph

open Check List
open Function (update update_of_ne update_self)

variable {ν : Type} [DecidableEq ν]

/-- `distance`, `path_length`, `queue` and `queued`. -/
structure Labels (ν : Type) where
  distance : ν → ℤ
  pathLength : ν → ℕ
  queue : List ν
  queued : ν → Bool

def lower (nodeCount : ℕ) (cycle : String) (s : Labels ν) (e : Step ν) :
    Except String (Labels ν) :=
  if e.capacity ≤ 0 ∨ s.distance e.target ≤ s.distance e.source + e.cost then .ok s
  else do
    let pathLength := s.pathLength e.source + 1
    raiseIf (pathLength ≥ nodeCount) cycle
    return { distance := update s.distance e.target (s.distance e.source + e.cost)
             pathLength := update s.pathLength e.target pathLength
             queue := if s.queued e.target then s.queue else s.queue ++ [e.target]
             queued := update s.queued e.target true }

/-- `while (!queue.empty())`; `none` without the fuel to finish. -/
def lowerAll (nodeCount : ℕ) (cycle : String) (graph : List (Arc ν)) :
    ℕ → Labels ν → Option (Except String (Labels ν))
  | 0, _ => none
  | fuel + 1, s =>
    match s.queue with
    | [] => some (.ok s)
    | node :: queue =>
      match (edgesFrom graph node).foldlM (lower nodeCount cycle)
          { s with queue := queue, queued := update s.queued node false } with
      | .error e => some (.error e)
      | .ok s => lowerAll nodeCount cycle graph fuel s

def undercut (distance : ν → ℤ) (e : Step ν) : Prop :=
  0 < e.capacity ∧ e.cost + distance e.source - distance e.target < 0

instance (distance : ν → ℤ) (e : Step ν) : Decidable (undercut distance e) :=
  inferInstanceAs (Decidable (_ ∧ _))

/-- `certificate_potentials`, with the texts of its two errors. -/
def certificatePotentials (cycle invalid : String) (nodes : List ν) (graph : List (Arc ν))
    (fuel : ℕ) : Option (Except String (ν → ℤ)) :=
  (lowerAll nodes.length cycle graph fuel
    { distance := fun _ => 0, pathLength := fun _ => 0, queue := nodes
      queued := fun _ => true }).map fun result => do
    let s ← result
    raiseIf (∃ e ∈ steps graph, undercut s.distance e) invalid
    return s.distance

variable {graph : List (Arc ν)} {nodes : List ν} {cycle : String} {price : ν → ℤ} {s t : Labels ν}
  {e : Step ν} {pending : List (Step ν)} {v : ν}

/-! ## the invariant -/

structure Trail (nodes : List ν) (price : ν → ℤ) (s : Labels ν) (v : ν) (p : List (ν × ℤ)) :
    Prop where
  distinct : (p.map Prod.fst).Nodup
  known : ∀ entry ∈ p, entry.1 ∈ nodes
  length : p.length = s.pathLength v + 1
  /-- Labels only fall. -/
  fallen : ∀ entry ∈ p, s.distance entry.1 ≤ entry.2
  /-- The way from a node to the label costs no less than the prices say. -/
  priced : ∀ entry ∈ p, price v - price entry.1 ≤ s.distance v - entry.2
  started : ∃ u, (u, 0) ∈ p

/-- What holds between two edges; those of the node at hand that are still to come are pending. -/
structure Certifying (graph : List (Arc ν)) (nodes : List ν) (price : ν → ℤ)
    (pending : List (Step ν)) (s : Labels ν) : Prop where
  trail : ∀ v ∈ nodes, ∃ p, Trail nodes price s v p
  queued : ∀ v ∈ nodes, s.queued v = true → v ∈ s.queue
  closed : ∀ e ∈ steps graph, 0 < e.capacity → e.source ∉ s.queue → e ∉ pending →
    s.distance e.target ≤ s.distance e.source + e.cost

def Within (graph : List (Arc ν)) (nodes : List ν) : Prop :=
  ∀ e ∈ steps graph, e.source ∈ nodes ∧ e.target ∈ nodes

/-- What an edge changes when it lowers its end. -/
structure Lowered (s : Labels ν) (e : Step ν) (t : Labels ν) : Prop where
  less : s.distance e.source + e.cost < s.distance e.target
  distance : ∀ v, t.distance v = if v = e.target then s.distance e.source + e.cost else s.distance v
  pathLength : ∀ v, t.pathLength v =
    if v = e.target then s.pathLength e.source + 1 else s.pathLength v
  queue : ∀ v, v ∈ t.queue ↔ v ∈ s.queue ∨ (v = e.target ∧ s.queued e.target = false)
  queued : ∀ v, t.queued v = true ↔ v = e.target ∨ s.queued v = true

theorem Lowered.le (h : Lowered s e t) (v : ν) : t.distance v ≤ s.distance v := by
  rw [h.distance]
  split_ifs with hv
  · rw [hv]
    exact h.less.le
  · exact le_refl _

omit [DecidableEq ν] in
theorem Trail.target_new (hprice : Potential graph price) (he : e ∈ steps graph)
    (hc : 0 < e.capacity) (hl : s.distance e.source + e.cost < s.distance e.target)
    {p : List (ν × ℤ)} (hp : Trail nodes price s e.source p) : e.target ∉ p.map Prod.fst := by
  intro hm
  obtain ⟨⟨u, label⟩, hen, rfl⟩ := mem_map.mp hm
  have hed := hprice e he hc
  have hf := hp.fallen _ hen
  have hpr := hp.priced _ hen
  dsimp only at hf hpr hed hl
  omega

theorem Trail.extend (hprice : Potential graph price) (he : e ∈ steps graph)
    (hc : 0 < e.capacity) (ht : e.target ∈ nodes) (h : Lowered s e t) {p : List (ν × ℤ)}
    (hp : Trail nodes price s e.source p) :
    Trail nodes price t e.target ((e.target, s.distance e.source + e.cost) :: p) := by
  have hn : t.distance e.target = s.distance e.source + e.cost := by
    rw [h.distance, if_pos rfl]
  have hed := hprice e he hc
  refine ⟨?_, ?_, ?_, ?_, ?_, ?_⟩
  · rw [map_cons, nodup_cons]
    exact ⟨hp.target_new hprice he hc h.less, hp.distinct⟩
  · exact forall_mem_cons.mpr ⟨ht, hp.known⟩
  · rw [length_cons, hp.length, h.pathLength, if_pos rfl]
  · exact forall_mem_cons.mpr ⟨hn.le, fun en hen =>
      (h.le en.1).trans (hp.fallen en hen)⟩
  · refine forall_mem_cons.mpr ⟨by rw [hn]; simp, fun en hen => ?_⟩
    have hpr := hp.priced en hen
    rw [hn]
    omega
  · obtain ⟨u, hu⟩ := hp.started
    exact ⟨u, mem_cons_of_mem _ hu⟩

section

variable (hprice : Potential graph price) (hwithin : Within graph nodes)
  (hinv : Certifying graph nodes price (e :: pending) s) (he : e ∈ steps graph)
include hprice hwithin hinv he

/-- An edge changes nothing, or lowers its end; it never finds a cycle. -/
theorem lower_cases : (lower nodes.length cycle s e = .ok s ∧
        (0 < e.capacity → s.distance e.target ≤ s.distance e.source + e.cost)) ∨
      0 < e.capacity ∧ ∃ t, lower nodes.length cycle s e = .ok t ∧ Lowered s e t := by
  by_cases hsk : e.capacity ≤ 0 ∨ s.distance e.target ≤ s.distance e.source + e.cost
  · exact .inl ⟨if_pos hsk, fun hc => hsk.resolve_left (not_le.mpr hc)⟩
  right
  obtain ⟨hsr, ht⟩ := hwithin e he
  obtain ⟨hc, hl⟩ := not_or.mp hsk
  rw [not_le] at hc hl
  refine ⟨hc, ?_⟩
  obtain ⟨p, hp⟩ := hinv.trail e.source hsr
  have hsh : ¬ s.pathLength e.source + 1 ≥ nodes.length := by
    have hs : (e.target :: p.map Prod.fst).Subperm nodes := by
      refine Nodup.subperm (nodup_cons.mpr
        ⟨hp.target_new hprice he hc hl, hp.distinct⟩) fun u hu => ?_
      rcases mem_cons.mp hu with rfl | hu
      · exact ht
      · obtain ⟨en, hen, rfl⟩ := mem_map.mp hu
        exact hp.known en hen
    have hln := hs.length_le
    rw [length_cons, length_map, hp.length] at hln
    omega
  refine ⟨{ distance := update s.distance e.target (s.distance e.source + e.cost)
            pathLength := update s.pathLength e.target (s.pathLength e.source + 1)
            queue := if s.queued e.target then s.queue else s.queue ++ [e.target]
            queued := update s.queued e.target true }, ?_, ?_⟩
  · rw [lower, if_neg hsk]
    exact raiseIf_bind.mpr ⟨hsh, rfl⟩
  · refine ⟨hl, fun v => Function.update_apply _ _ _ v, fun v => Function.update_apply _ _ _ v,
      fun v => ?_, fun v => ?_⟩
    · cases hq : s.queued e.target with
      | true => simp
      | false => simp
    · by_cases hv : v = e.target
      · simp [hv]
      · simp [hv]

theorem Certifying.lowered
    (hcp : 0 < e.capacity) (h : Lowered s e t) : Certifying graph nodes price pending t := by
  obtain ⟨hsr, htr⟩ := hwithin e he
  have hin : e.target ∈ t.queue := by
    rw [h.queue]
    by_cases hq : s.queued e.target = true
    · exact .inl (hinv.queued _ htr hq)
    · exact .inr ⟨rfl, by simpa using hq⟩
  refine ⟨fun v hv => ?_, fun v hv hq => ?_, fun e' he' hcp' hot hpn => ?_⟩
  · by_cases hsl : v = e.target
    · obtain ⟨p, hp⟩ := hinv.trail e.source hsr
      rw [hsl]
      exact ⟨_, hp.extend hprice he hcp htr h⟩
    · obtain ⟨p, hp⟩ := hinv.trail v hv
      have hkp : t.distance v = s.distance v := by rw [h.distance, if_neg hsl]
      refine ⟨p, hp.distinct, hp.known, ?_, fun en hen =>
        (h.le en.1).trans (hp.fallen en hen), fun en hen => ?_, hp.started⟩
      · rw [hp.length, h.pathLength, if_neg hsl]
      · rw [hkp]
        exact hp.priced en hen
  · rcases (h.queued v).mp hq with rfl | hq
    · exact hin
    · exact (h.queue v).mpr (.inl (hinv.queued v hv hq))
  · have hne : e'.source ≠ e.target := fun hs => hot (hs ▸ hin)
    have hol : e'.source ∉ s.queue := fun hs => hot ((h.queue _).mpr (.inl hs))
    rw [h.distance e'.source, if_neg hne]
    by_cases hsm : e' = e
    · rw [hsm, h.distance, if_pos rfl]
    · exact (h.le _).trans (hinv.closed e' he' hcp' hol (by simp [hsm, hpn]))

theorem Certifying.step :
    ∃ t, lower nodes.length cycle s e = .ok t ∧ Certifying graph nodes price pending t ∧
      (t = s ∨ Lowered s e t) := by
  rcases @lower_cases _ _ graph nodes cycle price s e pending hprice hwithin hinv he with
    ⟨hsm, hd⟩ | ⟨hc, t, ht, hl⟩
  · refine ⟨s, hsm, { hinv with closed := fun e' he' hc ho hp => ?_ }, .inl rfl⟩
    by_cases hs : e' = e
    · exact hs ▸ hd (hs ▸ hc)
    · exact hinv.closed e' he' hc ho (by simp [hs, hp])
  · exact ⟨t, ht, hinv.lowered hprice hwithin he hc hl, .inr hl⟩

end

/-! ## the loop ends -/

def room (nodes : List ν) (price : ν → ℤ) (s : Labels ν) : ℕ :=
  ∑ v ∈ nodes.toFinset, (s.distance v - price v + ∑ u ∈ nodes.toFinset, |price u|).toNat

theorem Trail.room_nonneg {p : List (ν × ℤ)} (hp : Trail nodes price s v p) :
    0 ≤ s.distance v - price v + ∑ u ∈ nodes.toFinset, |price u| := by
  obtain ⟨u, hu⟩ := hp.started
  have hpr := hp.priced _ hu
  have hle : |price u| ≤ ∑ u ∈ nodes.toFinset, |price u| :=
    Finset.single_le_sum (f := fun u => |price u|) (fun u _ => abs_nonneg (price u))
      (mem_toFinset.mpr (hp.known _ hu))
  have ha := le_abs_self (price u)
  dsimp only at hpr
  omega

theorem room_lowered (ht : e.target ∈ nodes) (h : Lowered s e t)
    (htr : ∃ p, Trail nodes price t e.target p) : room nodes price t < room nodes price s := by
  refine Finset.sum_lt_sum (fun v _ => ?_) ⟨e.target, mem_toFinset.mpr ht, ?_⟩
  · have hle := h.le v
    omega
  · obtain ⟨p, hp⟩ := htr
    have hn := hp.room_nonneg
    have hl := h.less
    have hnw : t.distance e.target = s.distance e.source + e.cost := by
      rw [h.distance, if_pos rfl]
    omega

theorem Certifying.foldlM (hprice : Potential graph price) (hwithin : Within graph nodes) :
    ∀ {l : List (Step ν)} {s : Labels ν}, Certifying graph nodes price l s →
      (∀ e ∈ l, e ∈ steps graph) →
      ∃ t, l.foldlM (lower nodes.length cycle) s = .ok t ∧ Certifying graph nodes price [] t ∧
        (t = s ∨ room nodes price t < room nodes price s)
  | [], s, hinv, _ => ⟨s, rfl, hinv, .inl rfl⟩
  | e :: l, s, hinv, hl => by
    obtain ⟨he, hrs⟩ := forall_mem_cons.mp hl
    obtain ⟨t, ht, hn, hc⟩ :=
      @Certifying.step _ _ graph nodes cycle price s e l hprice hwithin hinv he
    obtain ⟨r, hr, hls, hc'⟩ := @Certifying.foldlM hprice hwithin l t hn hrs
    refine ⟨r, by rw [foldlM_cons, ht]; exact hr, hls, ?_⟩
    rcases hc with rfl | hlw
    · exact hc'
    · right
      have hlt := room_lowered (hwithin e he).2 hlw (hn.trail _ (hwithin e he).2)
      rcases hc' with rfl | hle
      · exact hlt
      · exact hle.trans hlt

theorem Certifying.pop {node : ν} {queue : List ν} (hinv : Certifying graph nodes price [] s)
    (hqu : s.queue = node :: queue) : Certifying graph nodes price (edgesFrom graph node)
      { s with queue := queue, queued := update s.queued node false } where
  trail := fun v hv => by
    obtain ⟨p, hp⟩ := hinv.trail v hv
    exact ⟨p, hp.distinct, hp.known, hp.length, hp.fallen, hp.priced, hp.started⟩
  queued := fun v hv hq => by
    have hq : update s.queued node false v = true := hq
    by_cases hs : v = node
    · rw [hs, update_self] at hq
      cases hq
    · rw [update_of_ne hs] at hq
      have hm := hinv.queued v hv hq
      rw [hqu] at hm
      exact (mem_cons.mp hm).resolve_left hs
  closed := fun e he hc ho hpn => by
    refine hinv.closed e he hc (fun hm => ?_) not_mem_nil
    rw [hqu] at hm
    rcases mem_cons.mp hm with hs | hm
    · exact hpn (mem_edgesFrom.mpr ⟨he, hs⟩)
    · exact ho hm

theorem exists_lowerAll (hprice : Potential graph price) (hwithin : Within graph nodes) :
    ∀ s : Labels ν, Certifying graph nodes price [] s → ∃ bound t,
      (∀ fuel ≥ bound, lowerAll nodes.length cycle graph fuel s = some (.ok t)) ∧
        Certifying graph nodes price [] t ∧ t.queue = [] := by
  have hen : ∀ n : ℕ, ∀ queue : List ν, ∀ s : Labels ν, room nodes price s = n →
      s.queue = queue → Certifying graph nodes price [] s → ∃ bound t,
        (∀ fuel ≥ bound, lowerAll nodes.length cycle graph fuel s = some (.ok t)) ∧
          Certifying graph nodes price [] t ∧ t.queue = [] := by
    intro n
    -- on the room, and for the same room on the queue
    induction n using Nat.strong_induction_on with
    | _ n ihn =>
      intro queue
      induction queue with
      | nil =>
        intro s _ hq hinv
        refine ⟨1, s, fun fuel hf => ?_, hinv, hq⟩
        obtain ⟨m, rfl⟩ := Nat.exists_eq_add_of_le' hf
        rw [lowerAll, hq]
      | cons node queue ihq =>
        intro s hrm hq hinv
        obtain ⟨r, hr, hn, hc⟩ := @Certifying.foldlM _ _ graph nodes cycle price hprice
          hwithin _ _ (hinv.pop hq) fun e he => (mem_edgesFrom.mp he).1
        obtain ⟨bound, t, hrn, ht⟩ : ∃ bound t, (∀ fuel ≥ bound,
            lowerAll nodes.length cycle graph fuel r = some (.ok t)) ∧
              Certifying graph nodes price [] t ∧ t.queue = [] := by
          rcases hc with rfl | hl
          · exact ihq _ hrm rfl hn
          · exact ihn _ (hrm ▸ hl) _ r rfl rfl hn
        refine ⟨bound + 1, t, fun fuel hf => ?_, ht⟩
        obtain ⟨m, rfl⟩ := Nat.exists_eq_add_of_le' (show 1 ≤ fuel by omega)
        rw [lowerAll, hq]
        dsimp only
        rw [hr]
        exact hrn m (by omega)
  exact fun s hinv => hen _ _ s rfl rfl hinv

/-- **The labels are potentials**: neither error is raised. -/
theorem certificatePotentials_spec (hprice : Potential graph price) (hwithin : Within graph nodes)
    (invalid : String) : ∃ bound potentials,
      (∀ fuel ≥ bound, certificatePotentials cycle invalid nodes graph fuel =
        some (.ok potentials)) ∧ Potential graph potentials := by
  have hs : Certifying graph nodes price []
      { distance := fun _ => 0, pathLength := fun _ => 0, queue := nodes
        queued := fun _ => true } := by
    refine ⟨fun v hv => ⟨[(v, 0)], ?_, ?_, rfl, ?_, ?_, v, mem_singleton.mpr rfl⟩,
      fun v hv _ => hv, fun e he _ ho => absurd (hwithin e he).1 ho⟩
    · simp
    · simp [hv]
    · simp
    · simp
  obtain ⟨bound, t, hr, hinv, hq⟩ := @exists_lowerAll _ _ graph nodes cycle price hprice
    hwithin _ hs
  have hp : Potential graph t.distance := fun e he hc =>
    hinv.closed e he hc (hq ▸ not_mem_nil) not_mem_nil
  refine ⟨bound, t.distance, fun fuel hf => ?_, hp⟩
  have hvl : ¬ ∃ e ∈ steps graph, undercut t.distance e := by
    rintro ⟨e, he, hc, hl⟩
    have hle := hp e he hc
    omega
  rw [certificatePotentials, hr fuel hf, Option.map_some]
  exact congrArg some (raiseIf_bind.mpr ⟨hvl, rfl⟩)

end ResidualGraph
