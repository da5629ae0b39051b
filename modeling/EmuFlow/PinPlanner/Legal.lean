import EmuFlow.Lib.Keyed
import EmuFlow.PinPlanner.Grouping
import Mathlib.Algebra.Order.Floor.Div

/-!
# Initial groups are legal

The lower bound on the groups of a ratio is always attained: between two slots the sizes of the
groups differ by at most one, so a group is open for every signal.
-/

namespace EmuFlow.PinPlanner

open Check SortedSet BalancedFill List
open Function (update update_of_ne update_self)

/-! ## the data of a group -/

def Group.ofSignals {n : ℕ} (signals : Fin n → Signal) (ratio : ℕ) (members : List (Fin n)) :
    Group n :=
  members.foldl (Group.place signals) { ratio := ratio }

theorem Group.ofSignals_concat {n : ℕ} (signals : Fin n → Signal) (ratio : ℕ)
    (members : List (Fin n)) (i : Fin n) : Group.ofSignals signals ratio (members ++ [i]) =
      (Group.ofSignals signals ratio members).place signals i := by
  unfold Group.ofSignals
  rw [foldl_append]
  rfl

/-- A group with the data of its signals, of which at most `ratio` are in it and no two of a slot.
-/
structure LegalGroup (input : Input) (ratio : ℕ) (group : Group input.size) : Prop where
  eq_ofSignals : group = .ofSignals input.signals ratio group.signals
  length_le : group.signals.length ≤ ratio
  slots_nodup : (group.signals.map fun i => (input.signals i).slot).Nodup

structure FilledGroup (input : Input) (group : Group input.size) : Prop where
  legal : LegalGroup input group.ratio group
  ne_nil : group.signals ≠ []
  ratio_eq : ∀ i ∈ group.signals, (input.signals i).ratio = group.ratio

@[simp] theorem Group.ofSignals_ratio {n : ℕ} (signals : Fin n → Signal) (ratio : ℕ)
    (members : List (Fin n)) : (Group.ofSignals signals ratio members).ratio = ratio := by
  induction members using reverseRecOn with
  | nil => rfl
  | append_singleton members i ih =>
    rw [Group.ofSignals_concat]
    exact ih

variable {input : Input} {ratio count : ℕ}

def load (groups : Fin count → Group input.size) (index : Fin count) : ℕ :=
  (groups index).signals.length

def grouped (groups : Fin count → Group input.size) : List (Fin input.size) :=
  (List.finRange count).flatMap fun index => (groups index).signals

theorem sum_load (groups : Fin count → Group input.size) :
    ∑ index, load groups index = (grouped groups).length := by
  unfold grouped
  rw [length_flatMap, Fin.sum_univ_def]
  rfl

variable {i : Fin input.size}

theorem grouped_update (groups : Fin count → Group input.size) (best : Fin count)
    (group : Group input.size)
    (hsg : group.signals = (groups best).signals ++ [i]) :
    (grouped (update groups best group)).Perm (grouped groups ++ [i]) := by
  have hn := nodup_finRange count
  obtain ⟨pre, post, hs⟩ := append_of_mem (mem_finRange best)
  rw [hs] at hn
  have hpr : best ∉ pre := fun h =>
    disjoint_of_nodup_append hn h mem_cons_self
  have hp : best ∉ post := (nodup_cons.mp (nodup_append.mp hn).2.1).1
  have hsm : ∀ l : List (Fin count), best ∉ l →
      (l.flatMap fun index => (update groups best group index).signals) =
        l.flatMap fun index => (groups index).signals := by
    intro l hl
    refine flatMap_congr fun index hi => ?_
    have hne : index ≠ best := by
      rintro rfl
      exact hl hi
    rw [update_of_ne hne]
  unfold grouped
  rw [hs, flatMap_append, flatMap_append, flatMap_cons, flatMap_cons,
    hsm pre hpr, hsm post hp, update_self, hsg]
  simp only [append_assoc]
  refine List.Perm.append_left _ (List.Perm.append_left _ ?_)
  exact perm_append_comm

structure Filled (input : Input) (ratio : ℕ) (groups : Fin count → Group input.size)
    (placed : List (Fin input.size)) : Prop where
  legal : ∀ index, LegalGroup input ratio (groups index)
  perm : (grouped groups).Perm placed

structure InSlot (input : Input) (ratio slot : ℕ) (start : Fin count → ℕ)
    (state : (Fin count → Group input.size) × Finset (Fin count))
    (placed : List (Fin input.size)) : Prop where
  filled : Filled input ratio state.1 placed
  inClass : InClass start (load state.1) state.2
  slot_used : ∀ index, ∀ i ∈ (state.1 index).signals, (input.signals i).slot = slot →
    index ∈ state.2

variable {groups : Fin count → Group input.size} {used : Finset (Fin count)}

theorem pickGroup_spec
    {signal : Signal} {best : Fin count}
    (h : input.pickGroup ratio groups used signal = some best) :
    best ∉ used ∧ load groups best < ratio ∧ ∀ b ∉ used, load groups best ≤ load groups b := by
  have hm := List.argmin_mem h
  simp only [List.mem_filter, List.mem_finRange, true_and, decide_eq_true_eq] at hm
  refine ⟨hm.1, hm.2, fun b hb => ?_⟩
  by_cases hr : (groups b).signals.length < ratio
  · have hle := List.le_of_mem_argmin (List.mem_filter.mpr
      ⟨List.mem_finRange b, decide_eq_true ⟨hb, hr⟩⟩) h
    unfold SortedSet.lex at hle
    rcases Prod.Lex.toLex_le_toLex.mp hle with hlt | ⟨heq, -⟩
    · exact hlt.le
    · exact heq.le
  · exact hm.2.le.trans (not_lt.mp hr)

theorem exists_pickGroup (signal : Signal) (h : ∃ index ∉ used, load groups index < ratio) :
    ∃ best, input.pickGroup ratio groups used signal = some best := by
  obtain ⟨index, hi, hr⟩ := h
  refine Option.ne_none_iff_exists'.mp fun hn => ?_
  have hnl := argmin_eq_none.mp hn
  have hm : index ∈ ((finRange count).filter fun index =>
      index ∉ used ∧ (groups index).signals.length < ratio) :=
    mem_filter.mpr ⟨mem_finRange index, decide_eq_true ⟨hi, hr⟩⟩
  rw [hnl] at hm
  cases hm

variable {placed : List (Fin input.size)}

theorem placeSignal_spec {slot : ℕ} {start : Fin count → ℕ}
    {state : (Fin count → Group input.size) × Finset (Fin count)}
    (h : InSlot input ratio slot start state placed)
    (hst : Balanced start) (hu : state.2.card < count)
    (hr : placed.length < count * ratio)
    (hsl : (input.signals i).slot = slot) :
    ∃ state', input.placeSignal ratio state i = .ok state' ∧
      InSlot input ratio slot start state' (placed ++ [i]) ∧
      state'.2.card = state.2.card + 1 := by
  have hsm : ∑ index, load state.1 index < count * ratio := by
    rw [sum_load, h.filled.perm.length_eq]
    exact hr
  obtain ⟨best, hb⟩ := exists_pickGroup (input.signals i)
    (h.inClass.exists_open hst hu hsm)
  obtain ⟨hf, ho, hls⟩ := pickGroup_spec hb
  refine ⟨_, by rw [Input.placeSignal, hb], ⟨⟨fun index => ?_, ?_⟩, ?_, ?_⟩,
    Finset.card_insert_of_notMem hf⟩
  · -- only the picked group changes
    by_cases hin : index = best
    · subst hin
      have hl := h.filled.legal index
      show LegalGroup input ratio
        (update state.1 index ((state.1 index).place input.signals i) index)
      rw [update_self]
      refine ⟨?_, ?_, ?_⟩
      · show (state.1 index).place input.signals i =
          .ofSignals input.signals ratio ((state.1 index).signals ++ [i])
        rw [Group.ofSignals_concat, ← hl.eq_ofSignals]
      · show ((state.1 index).signals ++ [i]).length ≤ ratio
        rw [length_append]
        exact ho
      · show (((state.1 index).signals ++ [i]).map _).Nodup
        rw [map_append, map_singleton, nodup_append]
        refine ⟨hl.slots_nodup, nodup_singleton _, ?_⟩
        rintro s hs t ht rfl
        obtain ⟨j, hj, hjs⟩ := mem_map.mp hs
        rw [mem_singleton] at ht
        exact hf (h.slot_used index j hj (hjs.trans (ht.trans hsl)))
    · show LegalGroup input ratio (update state.1 best _ index)
      rw [update_of_ne hin]
      exact h.filled.legal index
  · exact (grouped_update state.1 best _ rfl).trans (h.filled.perm.append_right [i])
  · have hld : load (update state.1 best ((state.1 best).place input.signals i)) =
        update (load state.1) best (load state.1 best + 1) := by
      funext index
      unfold load
      by_cases hin : index = best
      · subst hin
        simp [Group.place]
      · rw [update_of_ne hin, update_of_ne hin]
    rw [hld]
    exact h.inClass.place hf hls
  · intro index j hj hjs
    by_cases hin : index = best
    · rw [hin]
      exact Finset.mem_insert_self _ _
    · refine Finset.mem_insert_of_mem (h.slot_used index j ?_ hjs)
      have hj : j ∈ (update state.1 best _ index).signals := hj
      rw [update_of_ne hin] at hj
      exact hj

theorem foldlM_placeSignal {slot : ℕ} {start : Fin count → ℕ} (hs : Balanced start) :
    ∀ {rest : List (Fin input.size)} {state : (Fin count → Group input.size) × Finset (Fin count)}
      {placed : List (Fin input.size)}, InSlot input ratio slot start state placed →
      (∀ i ∈ rest, (input.signals i).slot = slot) → state.2.card + rest.length ≤ count →
      placed.length + rest.length ≤ count * ratio →
      ∃ state', rest.foldlM (input.placeSignal ratio) state = .ok state' ∧
        InSlot input ratio slot start state' (placed ++ rest)
  | [], state, placed, h, _, _, _ => ⟨state, rfl, by rwa [List.append_nil]⟩
  | i :: rest, state, placed, h, hsl, hu, hr => by
    rw [List.length_cons] at hu hr
    obtain ⟨next, hn, hi, hc⟩ := placeSignal_spec h hs (by omega) (by omega)
      (hsl i mem_cons_self)
    obtain ⟨state', hst', hd⟩ := foldlM_placeSignal hs hi
      (fun j hj => hsl j (mem_cons_of_mem _ hj)) (by omega)
      (by rw [length_append, length_singleton]; omega)
    refine ⟨state', ?_, ?_⟩
    · rw [foldlM_cons, hn]
      exact hst'
    · rwa [append_assoc] at hd

theorem placeSlot_spec {domain slot : ℕ} (h : Filled input ratio groups placed)
    (hb : Balanced (load groups)) (hn : ∀ i ∈ placed, (input.signals i).slot ≠ slot)
    (hu : (input.bucket domain ratio slot).length ≤ count)
    (hr : placed.length + (input.bucket domain ratio slot).length ≤ count * ratio) :
    ∃ groups', input.placeSlot domain ratio groups slot = .ok groups' ∧
      Filled input ratio groups' (placed ++ input.bucket domain ratio slot) ∧
      Balanced (load groups') := by
  have hs : InSlot input ratio slot (load groups) (groups, ∅) placed := by
    refine ⟨h, inClass_start _, fun index i hi hsl => absurd hsl (hn i ?_)⟩
    exact h.perm.mem_iff.mp (mem_flatMap.mpr ⟨index, mem_finRange index, hi⟩)
  have hbc : ∀ i ∈ input.bucket domain ratio slot, (input.signals i).slot = slot := by
    intro i hi
    exact of_decide_eq_true (mem_filter.mp (mem_sortedBy.mp hi)).2
  obtain ⟨state, hst, hd⟩ := foldlM_placeSignal hb hs hbc
    (by rw [Finset.card_empty]; omega) hr
  refine ⟨state.1, ?_, hd.filled, hd.inClass.balanced hb⟩
  rw [Input.placeSlot, hst]
  rfl

/-! ## the groups of a ratio -/

variable {domain : ℕ}

theorem foldlM_placeSlot : ∀ {slots : List ℕ} {groups : Fin count → Group input.size}
    {placed : List (Fin input.size)}, Filled input ratio groups placed → Balanced (load groups) →
    slots.Nodup → (∀ i ∈ placed, (input.signals i).slot ∉ slots) →
    (∀ slot ∈ slots, (input.bucket domain ratio slot).length ≤ count) →
    placed.length + (slots.flatMap (input.bucket domain ratio)).length ≤ count * ratio →
    ∃ groups', slots.foldlM (input.placeSlot domain ratio) groups = .ok groups' ∧
      Filled input ratio groups' (placed ++ slots.flatMap (input.bucket domain ratio)) ∧
      Balanced (load groups')
  | [], groups, placed, h, hb, _, _, _, _ =>
    ⟨groups, rfl, by rwa [List.flatMap_nil, List.append_nil], hb⟩
  | slot :: slots, groups, placed, h, hb, hnd, hn, hu, hr => by
    obtain ⟨hsl, hnd⟩ := nodup_cons.mp hnd
    rw [flatMap_cons, length_append] at hr
    obtain ⟨next, hnt, hf, hnx⟩ := placeSlot_spec h hb
      (fun i hi heq => hn i hi (heq ▸ mem_cons_self)) (hu slot mem_cons_self)
      (by omega)
    have hnt' : ∀ i ∈ placed ++ input.bucket domain ratio slot,
        (input.signals i).slot ∉ slots := by
      intro i hi hm
      rcases mem_append.mp hi with hi | hi
      · exact hn i hi (mem_cons_of_mem _ hm)
      · have heq := of_decide_eq_true (mem_filter.mp (mem_sortedBy.mp hi)).2
        exact hsl (heq ▸ hm)
    obtain ⟨groups', hg', hd, hb'⟩ := foldlM_placeSlot hf hnx hnd
      hnt' (fun s hs => hu s (mem_cons_of_mem _ hs))
      (by rw [length_append]; omega)
    refine ⟨groups', ?_, ?_, hb'⟩
    · rw [foldlM_cons, hnt]
      exact hg'
    · rwa [flatMap_cons, ← append_assoc]

theorem nodup_slotOrder (domain ratio : ℕ) : (input.slotOrder domain ratio).Nodup :=
  nodup_sortedBy.mpr (nodup_sortedSet _)

theorem flatMap_bucket_perm (input : Input) (domain ratio : ℕ) :
    ((input.slotOrder domain ratio).flatMap (input.bucket domain ratio)).Perm
      (input.ratioSignals domain ratio) := by
  refine (List.Perm.flatMap_left _ fun slot _ => sortedBy_perm _ _).trans
    (Keyed.flatMap_filter_perm (nodup_slotOrder domain ratio) fun i hi => ?_)
  exact mem_sortedBy.mpr (mem_sortedSet.mpr (mem_map_of_mem hi))

theorem length_ratioSignals_le (hr : 0 < ratio) :
    (input.ratioSignals domain ratio).length ≤ input.groupCount domain ratio * ratio := by
  have hc := Nat.le_max_left (((input.ratioSignals domain ratio).length + ratio - 1) / ratio)
    (input.maximumSlotMultiplicity domain ratio)
  have hd := Nat.div_add_mod ((input.ratioSignals domain ratio).length + ratio - 1) ratio
  have hm := Nat.mod_lt ((input.ratioSignals domain ratio).length + ratio - 1) hr
  have hml := Nat.mul_le_mul_left ratio hc
  show _ ≤ max _ _ * ratio
  rw [Nat.mul_comm]
  omega

theorem length_bucket_le {domain slot : ℕ} (h : slot ∈ input.slotOrder domain ratio) :
    (input.bucket domain ratio slot).length ≤ input.groupCount domain ratio := by
  have hmax : (input.bucket domain ratio slot).length ≤
      input.maximumSlotMultiplicity domain ratio :=
    le_maxOrZero (mem_map.mpr ⟨slot, h, rfl⟩)
  exact hmax.trans (Nat.le_max_right _ _)

theorem groupCount_le (hr : 0 < ratio) :
    input.groupCount domain ratio ≤ (input.ratioSignals domain ratio).length := by
  refine Nat.max_le.mpr ⟨?_, ?_⟩
  · rw [Nat.div_le_iff_le_mul_add_pred hr]
    have hm := Nat.le_mul_of_pos_left (input.ratioSignals domain ratio).length hr
    omega
  · refine maxOrZero_le fun n hn => ?_
    obtain ⟨slot, -, rfl⟩ := mem_map.mp hn
    exact (sortedBy_perm _ _).length_eq.trans_le (length_filter_le _ _)

theorem fillRatio_spec (input : Input) (domain : ℕ) (hr : 0 < ratio) :
    ∃ groups, input.fillRatio domain ratio (input.groupCount domain ratio) = .ok groups ∧
      groups.length = input.groupCount domain ratio ∧
      (groups.flatMap Group.signals).Perm (input.ratioSignals domain ratio) ∧
      ∀ group ∈ groups, FilledGroup input group := by
  have hpr := flatMap_bucket_perm input domain ratio
  have he : Filled input ratio
      (fun _ : Fin (input.groupCount domain ratio) => { ratio := ratio }) [] := by
    refine ⟨fun _ => ⟨rfl, Nat.zero_le ratio, nodup_nil⟩, ?_⟩
    unfold grouped
    simp
  obtain ⟨groups, hg, hf, hb⟩ := foldlM_placeSlot he (balanced_const 0)
    (nodup_slotOrder domain ratio) (by simp) (fun slot hsl => length_bucket_le hsl)
    (by
      rw [hpr.length_eq, length_nil, Nat.zero_add]
      exact length_ratioSignals_le hr)
  have ha := (hf.perm.trans (nil_append _ ▸ List.Perm.refl _)).trans hpr
  have hp : ∀ index, 0 < load groups index := by
    refine hb.pos ?_
    rw [sum_load, ha.length_eq]
    exact groupCount_le hr
  refine ⟨ofFn groups, ?_, length_ofFn, ?_, fun group hgp => ?_⟩
  · refine bind_eq_ok.mpr ⟨groups, hg, raiseIf_bind.mpr ⟨?_, rfl⟩⟩
    rintro ⟨index, hn⟩
    exact absurd (congrArg length hn) (hp index).ne'
  · rw [ofFn_eq_map, flatMap_map]
    exact ha
  · obtain ⟨index, rfl⟩ := mem_ofFn.mp hgp
    have hl := hf.legal index
    have hs : (groups index).ratio = ratio := by
      rw [hl.eq_ofSignals, Group.ofSignals_ratio]
    refine ⟨hs.symm ▸ hl, length_pos_iff.mp (hp index), fun i hi => ?_⟩
    have hm := ha.mem_iff.mp (mem_flatMap.mpr ⟨index, mem_finRange index, hi⟩)
    rw [hs]
    exact of_decide_eq_true (mem_filter.mp hm).2

/-! ## the groups of a domain -/

def capacityMessage : String := "minimum legal TDM grouping exceeds physical lane capacity"

theorem foldlM_groupRatio (domain : ℕ) : ∀ {ratios : List ℕ} (groups : List (Group input.size)),
    (∀ r ∈ ratios, 0 < r) → (∀ group ∈ groups, FilledGroup input group) →
    groups.length ≤ input.lanes.getD domain 0 →
    if input.lanes.getD domain 0 <
        groups.length + (ratios.map (input.groupCount domain)).sum then
      ratios.foldlM (input.groupRatio domain) groups = .error capacityMessage
    else ∃ groups', ratios.foldlM (input.groupRatio domain) groups = .ok groups' ∧
      groups'.length ≤ input.lanes.getD domain 0 ∧
      (groups'.flatMap Group.signals).Perm
        (groups.flatMap Group.signals ++ ratios.flatMap (input.ratioSignals domain)) ∧
      ∀ group ∈ groups', FilledGroup input group
  | [], groups, _, hf, hl => by
    rw [if_neg (by simpa using hl)]
    exact ⟨groups, rfl, hl, by simp, hf⟩
  | ratio :: ratios, groups, hp, hf, hl => by
    obtain ⟨filled, hfr, hlg, hpr, hg⟩ :=
      fillRatio_spec input domain (hp ratio mem_cons_self)
    by_cases hra : input.lanes.getD domain 0 < groups.length + input.groupCount domain ratio
    · rw [if_pos (by rw [map_cons, sum_cons]; omega), foldlM_cons,
        Input.groupRatio, raiseIf, if_pos hra]
      rfl
    · have hs : input.groupRatio domain groups ratio = .ok (groups ++ filled) :=
        raiseIf_bind.mpr ⟨hra, bind_eq_ok.mpr ⟨filled, hfr, rfl⟩⟩
      have hrs := foldlM_groupRatio domain (groups ++ filled)
        (fun r hr => hp r (mem_cons_of_mem _ hr))
        (fun group hgp => (mem_append.mp hgp).elim (hf group) (hg group))
        (by rw [length_append, hlg]; omega)
      rw [length_append, hlg, Nat.add_assoc] at hrs
      rw [map_cons, sum_cons, foldlM_cons, hs]
      split at hrs
      · next hls =>
        rw [if_pos hls]
        exact hrs
      · next hrm =>
        rw [if_neg hrm]
        obtain ⟨groups', hg', hl', hpr', hf'⟩ := hrs
        refine ⟨groups', hg', hl', hpr'.trans ?_, hf'⟩
        rw [flatMap_append, flatMap_cons, append_assoc]
        exact (hpr.append_right _).append_left _

theorem ratios_pos {r : ℕ} (h : r ∈ input.ratios domain) : 0 < r := by
  obtain ⟨i, -, rfl⟩ := mem_map.mp (mem_sortedSet.mp h)
  exact input.ratio_pos i

theorem flatMap_ratioSignals_perm (domain : ℕ) :
    ((input.ratios domain).flatMap (input.ratioSignals domain)).Perm (input.domainSignals domain) :=
  Keyed.flatMap_filter_perm (nodup_sortedSet _) fun _ hi =>
    mem_sortedSet.mpr (mem_map_of_mem hi)

structure LegalGrouping (input : Input) (domain : ℕ) (groups : List (Group input.size)) : Prop where
  length_le : groups.length ≤ input.lanes.getD domain 0
  perm : (groups.flatMap Group.signals).Perm (input.domainSignals domain)
  filled : ∀ group ∈ groups, FilledGroup input group

theorem initialGrouping_outcome (input : Input) (domain : ℕ) : if input.lanes.getD domain 0 <
        ((input.ratios domain).map (input.groupCount domain)).sum then
      input.initialGrouping domain = .error capacityMessage
    else ∃ groups, input.initialGrouping domain = .ok groups ∧
      LegalGrouping input domain groups := by
  have h := foldlM_groupRatio domain [] (fun r (hr : r ∈ input.ratios domain) => ratios_pos hr)
    (by simp : ∀ group ∈ [], FilledGroup input group) (Nat.zero_le _)
  rw [length_nil, Nat.zero_add] at h
  split at h
  · next hls =>
    rw [if_pos hls]
    exact h
  · next hrm =>
    rw [if_neg hrm]
    obtain ⟨groups, hg, hl, hp, hf⟩ := h
    exact ⟨groups, hg, hl, hp.trans (flatMap_ratioSignals_perm domain), hf⟩

/-! ## the lanes a domain needs -/

def ratioMembers (input : Input) (domain ratio : ℕ) : Finset (Fin input.size) :=
  {i | (input.signals i).domain = domain ∧ (input.signals i).ratio = ratio}

def largestSlot (input : Input) (members : Finset (Fin input.size)) : ℕ :=
  members.sup fun i => {j ∈ members | (input.signals j).slot = (input.signals i).slot}.card

/-- The sum over the ratios of the larger of `members / ratio`, rounded up, and the largest number
of members that share a slot. -/
def laneDemand (input : Input) (domain : ℕ) : ℕ :=
  ∑ ratio ∈ ({i | (input.signals i).domain = domain} : Finset (Fin input.size)).image
      fun i => (input.signals i).ratio,
    max ((ratioMembers input domain ratio).card ⌈/⌉ ratio)
      (largestSlot input (ratioMembers input domain ratio))

theorem mem_ratioSignals :
    i ∈ input.ratioSignals domain ratio ↔ i ∈ ratioMembers input domain ratio := by
  simp [Input.ratioSignals, Input.domainSignals, ratioMembers, and_comm]

theorem nodup_domainSignals (domain : ℕ) : (input.domainSignals domain).Nodup :=
  (nodup_finRange _).filter _

theorem nodup_ratioSignals (domain ratio : ℕ) : (input.ratioSignals domain ratio).Nodup :=
  (nodup_domainSignals domain).filter _

theorem length_filter_ratioSignals (input : Input) (domain ratio : ℕ) (p : Fin input.size → Prop)
    [DecidablePred p] : ((input.ratioSignals domain ratio).filter fun i => p i).length =
      ((ratioMembers input domain ratio).filter p).card := by
  rw [← toFinset_card_of_nodup ((nodup_ratioSignals domain ratio).filter _)]
  congr 1
  ext i
  simp [mem_ratioSignals]

theorem groupCount_eq (domain ratio : ℕ) : input.groupCount domain ratio =
    max ((ratioMembers input domain ratio).card ⌈/⌉ ratio)
      (largestSlot input (ratioMembers input domain ratio)) := by
  have hc : (input.ratioSignals domain ratio).length =
      (ratioMembers input domain ratio).card := by
    simpa using length_filter_ratioSignals input domain ratio fun _ => True
  have hb : ∀ slot, (input.bucket domain ratio slot).length =
      ((ratioMembers input domain ratio).filter fun i => (input.signals i).slot = slot).card :=
    fun slot => (sortedBy_perm _ _).length_eq.trans (length_filter_ratioSignals input domain ratio
      _)
  have hs : input.maximumSlotMultiplicity domain ratio =
      largestSlot input (ratioMembers input domain ratio) := by
    refine le_antisymm (maxOrZero_le fun n hn => ?_) (Finset.sup_le fun i hi => ?_)
    · obtain ⟨slot, hsl, rfl⟩ := mem_map.mp hn
      obtain ⟨i, hi, rfl⟩ := mem_map.mp (mem_sortedSet.mp (mem_sortedBy.mp hsl))
      rw [hb]
      exact Finset.le_sup (f := fun i => ((ratioMembers input domain ratio).filter fun j =>
        (input.signals j).slot = (input.signals i).slot).card) (mem_ratioSignals.mp hi)
    · rw [← hb]
      refine le_maxOrZero (mem_map.mpr ⟨(input.signals i).slot, ?_, rfl⟩)
      exact mem_sortedBy.mpr (mem_sortedSet.mpr (mem_map_of_mem (mem_ratioSignals.mpr hi)))
  rw [Input.groupCount, hc, hs, Nat.ceilDiv_eq_add_pred_div]

theorem laneDemand_eq (input : Input) (domain : ℕ) : laneDemand input domain =
    ((input.ratios domain).map (input.groupCount domain)).sum := by
  have hr : ({i | (input.signals i).domain = domain} : Finset (Fin input.size)).image
      (fun i => (input.signals i).ratio) = (input.ratios domain).toFinset := by
    ext r
    simp [Input.ratios, Input.domainSignals]
  unfold laneDemand
  rw [hr, sum_toFinset _ (show (input.ratios domain).Nodup from nodup_sortedSet _)]
  congr 1
  exact map_congr_left fun r _ => (groupCount_eq domain r).symm

/-- **`initial_grouping` raises exactly when the lanes of a domain are fewer than its signals
need**, and only for that; else every signal of the domain is in one group of its ratio, with at
most `ratio` signals of distinct slots. -/
theorem initialGrouping_iff (input : Input) (domain : ℕ) :
    ((∃ message, input.initialGrouping domain = .error message) ↔
      input.lanes.getD domain 0 < laneDemand input domain) ∧
    (∀ message, input.initialGrouping domain = .error message →
      message = "minimum legal TDM grouping exceeds physical lane capacity") ∧
    ∀ groups, input.initialGrouping domain = .ok groups →
      (∀ i, (groups.flatMap Group.signals).count i =
        if (input.signals i).domain = domain then 1 else 0) ∧
      ∀ group ∈ groups, group.signals ≠ [] ∧ group.signals.length ≤ group.ratio ∧
        (∀ i ∈ group.signals, (input.signals i).ratio = group.ratio) ∧
        (group.signals.map fun i => (input.signals i).slot).Nodup := by
  have h := initialGrouping_outcome input domain
  rw [← laneDemand_eq] at h
  split at h
  · next hless =>
    rw [h]
    refine ⟨⟨fun _ => hless, fun _ => ⟨_, rfl⟩⟩, fun message hmessage => ?_, fun groups hok => ?_⟩
    · exact (Except.error.inj hmessage).symm
    · cases hok
  · next hroom =>
    obtain ⟨groups, hgroups, hlegal⟩ := h
    rw [hgroups]
    refine ⟨⟨?_, fun hless => absurd hless hroom⟩, ?_, fun groups' hok => ?_⟩
    · rintro ⟨message, hmessage⟩
      cases hmessage
    · intro message hmessage
      cases hmessage
    · cases hok
      refine ⟨fun i => ?_, fun group hgroup => ?_⟩
      · rw [hlegal.perm.count_eq, (nodup_domainSignals domain).count]
        simp [Input.domainSignals]
      · obtain ⟨hlegalGroup, hne, hratio⟩ := hlegal.filled group hgroup
        exact ⟨hne, hlegalGroup.length_le, hratio, hlegalGroup.slots_nodup⟩

end EmuFlow.PinPlanner
