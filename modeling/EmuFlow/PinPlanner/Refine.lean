import EmuFlow.PinPlanner.Legal
import Mathlib.Algebra.BigOperators.Fin
import Mathlib.Tactic.Linarith

/-!
# Swaps between groups

`refine_groups` of `native/placement_aware_pin_planner.cpp`. The best swap of two signals between
groups of one ratio is made as long as there is one that lowers the costs.
-/

namespace EmuFlow.PinPlanner

open Check SortedSet BalancedFill List

/-! ## the swaps -/

def Group.rebuild {n : ℕ} (signals : Fin n → Signal) (group : Group n) : Group n :=
  (sorted group.signals).foldl (fun group i => group.count (signals i))
    { ratio := group.ratio, signals := sorted group.signals }

def Group.crossingWithout {n : ℕ} (group : Group n) (remove : Crossing) : Crossing :=
  (finRange 64).foldl (fun result bit =>
    if 0 < group.bitCounts bit - (if remove.getLsbD bit then 1 else 0) then
      result ||| BitVec.twoPow 64 bit
    else result) 0

def pairs {α : Type} : List α → List (α × α)
  | [] => []
  | a :: l => (l.map fun b => (a, b)) ++ pairs l

structure Swap {n count : ℕ} (groups : Fin count → Group n) where
  a : Fin count
  b : Fin count
  ia : Fin (groups a).signals.length
  ib : Fin (groups b).signals.length

namespace Swap

variable {n count : ℕ} {groups : Fin count → Group n} (swap : Swap groups)

def sa : Fin n := (groups swap.a).signals.get swap.ia

def sb : Fin n := (groups swap.b).signals.get swap.ib

def Blocked (signals : Fin n → Signal) : Prop :=
  (signals swap.sa).slot ≠ (signals swap.sb).slot ∧
    ((signals swap.sb).slot ∈ (groups swap.a).slots ∨
      (signals swap.sa).slot ∈ (groups swap.b).slots)

instance (signals : Fin n → Signal) : Decidable (swap.Blocked signals) :=
  inferInstanceAs (Decidable (_ ∧ _))

def apply (signals : Fin n → Signal) : Fin count → Group n :=
  Function.update
    (Function.update groups swap.a (Group.rebuild signals
      { groups swap.a with signals := (groups swap.a).signals.set swap.ia swap.sb }))
    swap.b (Group.rebuild signals
      { groups swap.b with signals := (groups swap.b).signals.set swap.ib swap.sa })

end Swap

namespace Input

variable (input : Input) {count : ℕ}

def groupMeanY (group : Group input.size) : ℚ :=
  (group.signals.map fun i => (input.signals i).meanY).sum / group.signals.length

def costAfterSwap (group : Group input.size) (remove add : Signal)
    (crossingWithoutRemove : Crossing) : ℚ :=
  input.cost (crossingWithoutRemove ||| add.crossing) (group.sumY - remove.sumY + add.sumY)
    (group.sumY2 - remove.sumY2 + add.sumY2) (2 * group.signals.length)

def candidates (group : Group input.size) : List (Fin group.signals.length) :=
  (sortedBy (fun position => lex
      (-|(input.signals (group.signals.get position)).meanY - input.groupMeanY group|)
      (group.signals.get position)) (finRange group.signals.length)).take 16

def swaps (groups : Fin count → Group input.size) : List (Swap groups) :=
  (sortedSet ((finRange count).map fun index => (groups index).ratio)).flatMap fun ratio =>
    (pairs ((finRange count).filter fun index => (groups index).ratio = ratio)).flatMap
      fun pair => (input.candidates (groups pair.1)).flatMap fun ia =>
        ((input.candidates (groups pair.2)).map fun ib =>
          { a := pair.1, b := pair.2, ia := ia, ib := ib : Swap groups }).filter
            fun swap => ¬ swap.Blocked input.signals

variable {groups : Fin count → Group input.size}

def costAfter (swap : Swap groups) : ℚ :=
  input.costAfterSwap (groups swap.a) (input.signals swap.sa) (input.signals swap.sb)
      ((groups swap.a).crossingWithout (input.signals swap.sa).crossing) +
    input.costAfterSwap (groups swap.b) (input.signals swap.sb) (input.signals swap.sa)
      ((groups swap.b).crossingWithout (input.signals swap.sb).crossing)

def delta (swap : Swap groups) : ℚ :=
  input.costAfter swap - (input.groupCost (groups swap.a) + input.groupCost (groups swap.b))

/-- A swap is compared by its gain and then by its indices; without one, the best is `-1.0e-12`. -/
def swapKey : Option (Swap groups) → ℚ ×ₗ ℤ ×ₗ ℤ ×ₗ ℤ ×ₗ ℤ
  | none => lex (-(1 / 1000000000000)) (lex (-1) (lex (-1) (lex (-1) (-1))))
  | some swap => lex (input.delta swap)
    (lex (swap.a : ℤ) (lex (swap.b : ℤ) (lex (swap.ia : ℤ) (swap.ib : ℤ))))

variable (groups)

def bestSwap : Option (Swap groups) :=
  (input.swaps groups).foldl (fun best swap =>
    if input.swapKey (some swap) < input.swapKey best then some swap else best) none

/-- One iteration, or `none` at the `break`. -/
def refineTurn : Option (Fin count → Group input.size) :=
  (input.bestSwap groups).map fun swap => swap.apply input.signals

def refineRounds : ℕ → (Fin count → Group input.size) → Fin count → Group input.size
  | 0, groups => groups
  | rounds + 1, groups =>
    match input.refineTurn groups with
    | none => groups
    | some groups => refineRounds rounds groups

def refineGroups : Fin count → Group input.size :=
  input.refineRounds input.refinementIterations groups

def objective : ℚ := ∑ index, input.groupCost (groups index)

end Input

/-! ## the data of a list of signals -/

section ofSignals

variable {n : ℕ} (signals : Fin n → Signal) (ratio : ℕ) (members : List (Fin n))

@[simp] theorem Group.ofSignals_signals :
    (Group.ofSignals signals ratio members).signals = members := by
  induction members using reverseRecOn with
  | nil => rfl
  | append_singleton members i ih =>
    rw [Group.ofSignals_concat]
    show (Group.ofSignals signals ratio members).signals ++ [i] = members ++ [i]
    rw [ih]

/-- What every placed signal adds to is a sum over the members. -/
theorem Group.ofSignals_sum {M : Type} [AddCommMonoid M] {f : Group n → M} {g : Fin n → M}
    (he : f { ratio := ratio } = 0)
    (hp : ∀ group i, f (Group.place signals group i) = f group + g i) :
    f (Group.ofSignals signals ratio members) = (members.map g).sum := by
  induction members using reverseRecOn with
  | nil => exact he
  | append_singleton members i ih =>
    rw [Group.ofSignals_concat, hp, ih, map_append, sum_append, map_singleton, sum_singleton]

theorem Group.ofSignals_sumY : (Group.ofSignals signals ratio members).sumY =
    (members.map fun i => (signals i).sumY).sum :=
  Group.ofSignals_sum signals ratio members rfl fun _ _ => rfl

theorem Group.ofSignals_sumY2 : (Group.ofSignals signals ratio members).sumY2 =
    (members.map fun i => (signals i).sumY2).sum :=
  Group.ofSignals_sum signals ratio members rfl fun _ _ => rfl

theorem Group.ofSignals_slots : (Group.ofSignals signals ratio members).slots =
    (members.map fun i => (signals i).slot).toFinset := by
  induction members using reverseRecOn with
  | nil => rfl
  | append_singleton members i ih =>
    rw [Group.ofSignals_concat, map_append, toFinset_append, map_singleton, ← ih]
    show insert _ _ = _
    rw [Finset.insert_eq, Finset.union_comm]
    rfl

theorem Group.ofSignals_bitCounts (bit : Fin 64) :
    (Group.ofSignals signals ratio members).bitCounts bit =
      (members.map fun i => if (signals i).crossing.getLsbD bit then (1 : ℤ) else 0).sum :=
  Group.ofSignals_sum (f := fun group : Group n => group.bitCounts bit) signals ratio members rfl
    fun _ _ => rfl

theorem sum_bits_nonneg (bit : ℕ) : 0 ≤
    (members.map fun i => if (signals i).crossing.getLsbD bit then (1 : ℤ) else 0).sum :=
  sum_nonneg fun b hb => by
    obtain ⟨i, -, rfl⟩ := mem_map.mp hb
    split <;> omega

theorem Group.ofSignals_crossing (bit : ℕ) :
    (Group.ofSignals signals ratio members).crossing.getLsbD bit = decide (0 <
        (members.map fun i => if (signals i).crossing.getLsbD bit then (1 : ℤ) else 0).sum) := by
  induction members using reverseRecOn with
  | nil => simp [Group.ofSignals]
  | append_singleton members i ih =>
    have hn := sum_bits_nonneg signals members bit
    rw [Group.ofSignals_concat, map_append, sum_append, map_singleton, sum_singleton]
    show ((Group.ofSignals signals ratio members).crossing ||| (signals i).crossing).getLsbD bit = _
    rw [BitVec.getLsbD_or, ih]
    cases (signals i).crossing.getLsbD bit
    · simp
    · have hp : 0 < (members.map fun i =>
          if (signals i).crossing.getLsbD bit then (1 : ℤ) else 0).sum + 1 := by omega
      simp [hp]

theorem Group.rebuild_eq (group : Group n) :
    group.rebuild signals = .ofSignals signals group.ratio (sorted group.signals) := by
  have hf : ∀ (l : List (Fin n)) (g : Group n) (members : List (Fin n)),
      l.foldl (fun group i => group.count (signals i)) { g with signals := members } =
        { l.foldl (Group.place signals) g with signals := members } := by
    intro l
    induction l with
    | nil => exact fun _ _ => rfl
    | cons i l ih => exact fun g members => ih (g.place signals i) members
  have hs := Group.ofSignals_signals signals group.ratio (sorted group.signals)
  refine (hf (sorted group.signals) { ratio := group.ratio } (sorted group.signals)).trans ?_
  show ({ Group.ofSignals signals group.ratio (sorted group.signals) with
    signals := sorted group.signals } : Group n) = _
  generalize Group.ofSignals signals group.ratio (sorted group.signals) = rebuilt at *
  rw [← hs]

end ofSignals

theorem getLsbD_foldl_twoPow {c : Fin 64 → Prop} [DecidablePred c] (l : List (Fin 64))
    (start : Crossing) (bit : Fin 64) :
    (l.foldl (fun r bit => if c bit then r ||| BitVec.twoPow 64 bit else r)
      start).getLsbD bit = (start.getLsbD bit || decide (bit ∈ l ∧ c bit)) := by
  induction l generalizing start with
  | nil => simp
  | cons b l ih =>
    rw [foldl_cons, ih]
    by_cases hb : b = bit
    · subst hb
      by_cases hc : c b <;> simp [hc]
    · have hne : (b : ℕ) ≠ bit := fun h => hb (Fin.ext h)
      by_cases hc : c b
      · simp [hc, Ne.symm hne, Ne.symm hb]
      · simp [hc, Ne.symm hb]

theorem Group.getLsbD_crossingWithout {n : ℕ} (group : Group n) (remove : Crossing)
    (bit : Fin 64) : (group.crossingWithout remove).getLsbD bit =
      decide (0 < group.bitCounts bit - if remove.getLsbD bit then 1 else 0) := by
  unfold Group.crossingWithout
  rw [getLsbD_foldl_twoPow]
  simp

section exchange

variable {input : Input} {group : Group input.size} {ratio : ℕ}

def Group.exchange {n : ℕ} (signals : Fin n → Signal) (group : Group n)
    (position : Fin group.signals.length) (i : Fin n) : Group n :=
  Group.rebuild signals { group with signals := group.signals.set position i }

theorem exchange_eq {n : ℕ} (signals : Fin n → Signal) (group : Group n)
    (position : Fin group.signals.length) (i : Fin n) : group.exchange signals position i =
      .ofSignals signals group.ratio (sorted (group.signals.set position i)) :=
  Group.rebuild_eq signals _

theorem exchange_perm (position : Fin group.signals.length) (i : Fin input.size) :
    (sorted (group.signals.set position i)).Perm (i :: group.signals.eraseIdx position) ∧
      group.signals.Perm (group.signals.get position :: group.signals.eraseIdx position) :=
  ⟨(sortedBy_perm _ _).trans (set_perm_cons_eraseIdx position.2 i),
    (getElem_cons_eraseIdx_perm position.2).symm⟩

theorem groupCost_exchange (h : group = .ofSignals input.signals ratio group.signals)
    (position : Fin group.signals.length) (i : Fin input.size) :
    input.groupCost (group.exchange input.signals position i) =
      input.costAfterSwap group (input.signals (group.signals.get position)) (input.signals i)
        (group.crossingWithout (input.signals (group.signals.get position)).crossing) := by
  obtain ⟨ha, hb⟩ := exchange_perm position i
  -- a sum over the signals changes by the two that are exchanged
  have hsu : ∀ {M : Type} [AddCommGroup M] (f : Fin input.size → M),
      ((sorted (group.signals.set position i)).map f).sum =
        (group.signals.map f).sum - f (group.signals.get position) + f i := by
    intro M _ f
    rw [(ha.map f).sum_eq, (hb.map f).sum_eq, map_cons, map_cons, sum_cons, sum_cons]
    abel
  have hl : (sorted (group.signals.set position i)).length = group.signals.length := by
    rw [length_sorted, length_set]
  have hne : sorted (group.signals.set position i) ≠ [] := by
    intro hn
    have hp := position.pos
    rw [← hl, hn] at hp
    exact absurd hp (Nat.lt_irrefl 0)
  have hc : (Group.ofSignals input.signals group.ratio
      (sorted (group.signals.set position i))).crossing =
        group.crossingWithout (input.signals (group.signals.get position)).crossing |||
          (input.signals i).crossing := by
    refine BitVec.eq_of_getLsbD_eq fun bit hbi => ?_
    have hr := sum_bits_nonneg input.signals (group.signals.eraseIdx position) bit
    have hbt : group.bitCounts ⟨bit, hbi⟩ = (group.signals.map fun i =>
        if (input.signals i).crossing.getLsbD bit then (1 : ℤ) else 0).sum := by
      rw [h, Group.ofSignals_bitCounts, Group.ofSignals_signals]
    rw [Group.ofSignals_crossing, BitVec.getLsbD_or,
      Group.getLsbD_crossingWithout group _ ⟨bit, hbi⟩, hbt, (ha.map _).sum_eq,
      (hb.map _).sum_eq, map_cons, map_cons, sum_cons, sum_cons]
    cases (input.signals i).crossing.getLsbD bit
    · simp
    · have hp : 0 < 1 + ((group.signals.eraseIdx position).map fun i =>
          if (input.signals i).crossing.getLsbD bit then (1 : ℤ) else 0).sum := by omega
      simp [hp]
  have hsm : group.sumY = (group.signals.map fun i => (input.signals i).sumY).sum := by
    rw [h, Group.ofSignals_sumY, Group.ofSignals_signals]
  have hs : group.sumY2 = (group.signals.map fun i => (input.signals i).sumY2).sum := by
    rw [h, Group.ofSignals_sumY2, Group.ofSignals_signals]
  rw [exchange_eq, Input.groupCost, if_neg (by rwa [Group.ofSignals_signals]),
    Input.costAfterSwap, hc, Group.ofSignals_sumY, Group.ofSignals_sumY2, hsu, hsu,
    ← hsm, ← hs, Group.ofSignals_signals, hl]

theorem exchange_legal (h : LegalGroup input ratio group) (position : Fin group.signals.length)
    {i : Fin input.size}
    (hsl : (input.signals i).slot = (input.signals (group.signals.get position)).slot ∨
      (input.signals i).slot ∉ group.slots) :
    LegalGroup input ratio (group.exchange input.signals position i) := by
  obtain ⟨ha, hb⟩ := exchange_perm position i
  have hr : group.ratio = ratio := by
    rw [h.eq_ofSignals, Group.ofSignals_ratio]
  have hs : group.slots = (group.signals.map fun i => (input.signals i).slot).toFinset := by
    conv_lhs => rw [h.eq_ofSignals]
    exact Group.ofSignals_slots _ _ _
  have hn := (hb.map fun i => (input.signals i).slot).nodup_iff.mp h.slots_nodup
  rw [map_cons, nodup_cons] at hn
  rw [exchange_eq, hr]
  refine ⟨by rw [Group.ofSignals_signals], ?_, ?_⟩
  · rw [Group.ofSignals_signals, length_sorted, length_set]
    exact h.length_le
  · rw [Group.ofSignals_signals, (ha.map _).nodup_iff, map_cons, nodup_cons]
    refine ⟨?_, hn.2⟩
    rcases hsl with hsm | hnw
    · rw [hsm]
      exact hn.1
    · intro hm
      refine hnw ?_
      rw [hs, mem_toFinset, (hb.map fun i => (input.signals i).slot).mem_iff]
      exact mem_cons_of_mem _ hm

end exchange

/-! ## a swap -/

section turn

variable {input : Input} {count : ℕ} {groups groups' : Fin count → Group input.size}

theorem lt_of_mem_pairs {α : Type} {R : α → α → Prop} : ∀ {l : List α}, l.Pairwise R →
    ∀ pair ∈ pairs l, R pair.1 pair.2 ∧ pair.1 ∈ l ∧ pair.2 ∈ l
  | [], _, pair, h => absurd h not_mem_nil
  | a :: l, hl, pair, h => by
    rw [pairwise_cons] at hl
    rcases List.mem_append.mp h with h | h
    · obtain ⟨b, hb, rfl⟩ := mem_map.mp h
      exact ⟨hl.1 b hb, mem_cons_self, mem_cons_of_mem _ hb⟩
    · obtain ⟨hR, ha, hb⟩ := lt_of_mem_pairs hl.2 pair h
      exact ⟨hR, mem_cons_of_mem _ ha, mem_cons_of_mem _ hb⟩

theorem mem_swaps {swap : Swap groups} (h : swap ∈ input.swaps groups) :
    swap.a ≠ swap.b ∧ (groups swap.a).ratio = (groups swap.b).ratio ∧
      ¬ swap.Blocked input.signals := by
  obtain ⟨ratio, -, h⟩ := mem_flatMap.mp h
  obtain ⟨pair, hp, h⟩ := mem_flatMap.mp h
  obtain ⟨ia, -, h⟩ := mem_flatMap.mp h
  obtain ⟨h, hbl⟩ := mem_filter.mp h
  obtain ⟨ib, -, rfl⟩ := mem_map.mp h
  have hs := (pairwise_lt_finRange count).filter fun index => (groups index).ratio = ratio
  obtain ⟨hlt, ha, hb⟩ := lt_of_mem_pairs hs pair hp
  refine ⟨hlt.ne, ?_, of_decide_eq_true hbl⟩
  exact (of_decide_eq_true (mem_filter.mp ha).2).trans (of_decide_eq_true (mem_filter.mp hb).2).symm

theorem bestSwap_spec {swap : Swap groups} (h : input.bestSwap groups = some swap) :
    swap ∈ input.swaps groups ∧ input.delta swap < -(1 / 1000000000000) := by
  have hf : ∀ (l : List (Swap groups)) (best : Option (Swap groups)),
      (∀ s ∈ l, s ∈ input.swaps groups) →
      (∀ s, best = some s → s ∈ input.swaps groups ∧ input.delta s < -(1 / 1000000000000)) →
      input.swapKey best ≤ input.swapKey (none : Option (Swap groups)) →
      ∀ s, l.foldl (fun best swap =>
          if input.swapKey (some swap) < input.swapKey best then some swap else best) best =
        some s → s ∈ input.swaps groups ∧ input.delta s < -(1 / 1000000000000) := by
    intro l
    induction l with
    | nil => exact fun best _ hb _ s hs => hb s hs
    | cons swap l ih =>
      intro best hl hb hk s hs
      rw [foldl_cons] at hs
      refine ih _ (fun s hs => hl s (mem_cons_of_mem _ hs)) ?_ ?_ s hs
      · intro s hs
        split at hs
        · next hls =>
          cases hs
          refine ⟨hl swap mem_cons_self, ?_⟩
          -- the tolerance ties with no swap, since its index is negative
          rcases Prod.Lex.toLex_lt_toLex.mp (hls.trans_le hk) with hlt | ⟨-, hlt⟩
          · exact hlt
          · rcases Prod.Lex.toLex_lt_toLex.mp hlt with hlt | ⟨heq, -⟩
            · have hlt : (swap.a : ℤ) < -1 := hlt
              omega
            · have heq : (swap.a : ℤ) = -1 := heq
              omega
        · exact hb s hs
      · split
        · next hls => exact (hls.trans_le hk).le
        · exact hk
  exact hf _ none (fun _ hs => hs) (fun _ hs => by cases hs) le_rfl swap h

theorem apply_eq (input : Input) {groups : Fin count → Group input.size} (swap : Swap groups)
    (index : Fin count) :
    swap.apply input.signals index =
      if index = swap.b then (groups swap.b).exchange input.signals swap.ib swap.sa
      else if index = swap.a then (groups swap.a).exchange input.signals swap.ia swap.sb
      else groups index := by
  unfold Swap.apply
  by_cases hb : index = swap.b
  · subst hb
    rw [Function.update_self, if_pos rfl]
    rfl
  · rw [Function.update_of_ne hb, if_neg hb]
    by_cases ha : index = swap.a
    · subst ha
      rw [Function.update_self, if_pos rfl]
      rfl
    · rw [Function.update_of_ne ha, if_neg ha]

def Legal (input : Input) (groups : Fin count → Group input.size) : Prop :=
  ∀ index, LegalGroup input (groups index).ratio (groups index) ∧ (groups index).signals ≠ []

structure Improves (input : Input) (groups groups' : Fin count → Group input.size) : Prop where
  legal : Legal input groups'
  ratio_eq : ∀ index, (groups' index).ratio = (groups index).ratio
  length_eq : ∀ index, (groups' index).signals.length = (groups index).signals.length
  perm : (grouped groups').Perm (grouped groups)
  objective_lt : input.objective groups' < input.objective groups - 1 / 1000000000000

theorem sum_two_changed {M : Type} [AddCommMonoid M] {f g : Fin count → M} {a b : Fin count}
    (ha : a ≠ b) (h : ∀ index, index ≠ a → index ≠ b → g index = f index) :
    ∑ index, g index + (f a + f b) = ∑ index, f index + (g a + g b) := by
  have hs : ∀ k : Fin count → M, ∑ index, k index =
      k a + (k b + ∑ index ∈ (Finset.univ.erase a).erase b, k index) := by
    intro k
    rw [Finset.add_sum_erase _ k (Finset.mem_erase.mpr ⟨ha.symm, Finset.mem_univ b⟩),
      Finset.add_sum_erase _ k (Finset.mem_univ a)]
  have hr : ∑ index ∈ (Finset.univ.erase a).erase b, g index =
      ∑ index ∈ (Finset.univ.erase a).erase b, f index := by
    refine Finset.sum_congr rfl fun index hi => ?_
    obtain ⟨hb, hi⟩ := Finset.mem_erase.mp hi
    exact h index (Finset.mem_erase.mp hi).1 hb
  rw [hs f, hs g, hr]
  abel

theorem coe_grouped (groups : Fin count → Group input.size) :
    (grouped groups : Multiset (Fin input.size)) =
      ∑ index, ((groups index).signals : Multiset (Fin input.size)) := by
  unfold grouped
  rw [Fin.sum_univ_def]
  induction finRange count with
  | nil => rfl
  | cons index l ih =>
    rw [flatMap_cons, map_cons, sum_cons, ← Multiset.coe_add, ih]

/-- **A turn of the loop** makes a swap at the costs of the rebuilt groups, and lowers them. -/
theorem refineTurn_spec (h : Legal input groups) (htr : input.refineTurn groups = some groups') :
    Improves input groups groups' ∧ ∃ swap : Swap groups, swap.a ≠ swap.b ∧
      groups' = swap.apply input.signals ∧
      input.groupCost (groups' swap.a) = input.costAfterSwap (groups swap.a)
        (input.signals swap.sa) (input.signals swap.sb)
        ((groups swap.a).crossingWithout (input.signals swap.sa).crossing) ∧
      input.groupCost (groups' swap.b) = input.costAfterSwap (groups swap.b)
        (input.signals swap.sb) (input.signals swap.sa)
        ((groups swap.b).crossingWithout (input.signals swap.sb).crossing) := by
  obtain ⟨swap, hsw, rfl⟩ := Option.map_eq_some_iff.mp htr
  obtain ⟨hmm, hdl⟩ := bestSwap_spec hsw
  obtain ⟨hab, hra, hbl⟩ := mem_swaps hmm
  have hin := apply_eq input swap
  have ha : swap.apply input.signals swap.a =
      (groups swap.a).exchange input.signals swap.ia swap.sb := by
    rw [hin, if_neg hab, if_pos rfl]
  have hb : swap.apply input.signals swap.b =
      (groups swap.b).exchange input.signals swap.ib swap.sa := by
    rw [hin, if_pos rfl]
  have hot : ∀ index, index ≠ swap.a → index ≠ swap.b →
      swap.apply input.signals index = groups index := by
    intro index hna hnb
    rw [hin, if_neg hnb, if_neg hna]
  have hsl := not_and_or.mp hbl
  have hll : LegalGroup input (groups swap.a).ratio (swap.apply input.signals swap.a) := by
    rw [ha]
    refine exchange_legal (h swap.a).1 swap.ia ?_
    rcases hsl with hsm | hnn
    · exact .inl (not_not.mp hsm).symm
    · exact .inr (not_or.mp hnn).1
  have hlb : LegalGroup input (groups swap.b).ratio (swap.apply input.signals swap.b) := by
    rw [hb]
    refine exchange_legal (h swap.b).1 swap.ib ?_
    rcases hsl with hsm | hnn
    · exact .inl (not_not.mp hsm)
    · exact .inr (not_or.mp hnn).2
  have hcs : input.groupCost (swap.apply input.signals swap.a) = _ :=
    ha ▸ groupCost_exchange (h swap.a).1.eq_ofSignals swap.ia swap.sb
  have hct : input.groupCost (swap.apply input.signals swap.b) = _ :=
    hb ▸ groupCost_exchange (h swap.b).1.eq_ofSignals swap.ib swap.sa
  have hco : input.groupCost (swap.apply input.signals swap.a) +
      input.groupCost (swap.apply input.signals swap.b) = input.costAfter swap := by
    rw [hcs, hct]
    rfl
  -- what holds of the two groups and of all others holds of all
  have hal : ∀ {P : Fin count → Prop}, P swap.a → P swap.b →
      (∀ index, swap.apply input.signals index = groups index → P index) → ∀ index, P index := by
    intro P hPa hPb hP index
    by_cases hna : index = swap.a
    · exact hna ▸ hPa
    · by_cases hnb : index = swap.b
      · exact hnb ▸ hPb
      · exact hP index (hot index hna hnb)
  have hrt : ∀ index, (swap.apply input.signals index).ratio = (groups index).ratio := by
    refine hal ?_ ?_ fun index heq => by rw [heq]
    · rw [ha, exchange_eq, Group.ofSignals_ratio]
    · rw [hb, exchange_eq, Group.ofSignals_ratio]
  have hln : ∀ index, (swap.apply input.signals index).signals.length =
      (groups index).signals.length := by
    refine hal ?_ ?_ fun index heq => by rw [heq]
    · rw [ha, exchange_eq, Group.ofSignals_signals, length_sorted, length_set]
    · rw [hb, exchange_eq, Group.ofSignals_signals, length_sorted, length_set]
  refine ⟨⟨fun index => ?_, hrt, hln, ?_, ?_⟩, swap, hab, rfl, hcs, hct⟩
  · rw [hrt index]
    refine ⟨?_, fun hnl => ?_⟩
    · revert index
      refine hal hll hlb fun index heq => ?_
      rw [heq]
      exact (h index).1
    · have hlg := hln index
      rw [hnl] at hlg
      exact (h index).2 (length_eq_zero_iff.mp hlg.symm)
  · -- both groups together keep their signals
    refine Multiset.coe_eq_coe.mp ?_
    rw [coe_grouped, coe_grouped]
    have hsu := sum_two_changed hab
      (f := fun index => ((groups index).signals : Multiset (Fin input.size)))
      (g := fun index => ((swap.apply input.signals index).signals : Multiset (Fin input.size)))
      fun index hna hnb => by rw [hot index hna hnb]
    refine add_right_cancel (hsu.trans ?_)
    congr 1
    obtain ⟨haf, hbf⟩ := exchange_perm swap.ia swap.sb
    obtain ⟨hat, hbr⟩ := exchange_perm swap.ib swap.sa
    rw [ha, hb, exchange_eq, exchange_eq, Group.ofSignals_signals, Group.ofSignals_signals,
      Multiset.coe_eq_coe.mpr haf, Multiset.coe_eq_coe.mpr hat,
      Multiset.coe_eq_coe.mpr hbf, Multiset.coe_eq_coe.mpr hbr,
      ← Multiset.cons_coe, ← Multiset.cons_coe, ← Multiset.cons_coe, ← Multiset.cons_coe]
    simp only [← Multiset.singleton_add]
    show _ = {swap.sa} + _ + ({swap.sb} + _)
    abel
  · have hsu := sum_two_changed hab (f := fun index => input.groupCost (groups index))
      (g := fun index => input.groupCost (swap.apply input.signals index))
      fun index hna hnb => by rw [hot index hna hnb]
    have hgn : input.costAfter swap - (input.groupCost (groups swap.a) +
        input.groupCost (groups swap.b)) < -(1 / 1000000000000) := hdl
    unfold Input.objective
    rw [hco] at hsu
    linarith

theorem cost_nonneg (input : Input) (crossing : Crossing) (sum sum2 values : ℚ) :
    0 ≤ input.cost crossing sum sum2 values := by
  have hc := input.crossingWeight_nonneg
  have hp := input.positionWeight_nonneg
  have hs : 0 ≤ max 0 (sum2 - sum * sum / values) := le_max_left _ _
  unfold Input.cost
  positivity

theorem objective_nonneg (input : Input) (groups : Fin count → Group input.size) :
    0 ≤ input.objective groups := by
  refine Finset.sum_nonneg fun index _ => ?_
  unfold Input.groupCost
  split
  · exact le_rfl
  · exact cost_nonneg ..

theorem refineRounds_succ : ∀ (rounds : ℕ) (groups : Fin count → Group input.size),
    input.refineRounds (rounds + 1) groups =
      ((input.refineTurn (input.refineRounds rounds groups)).getD
        (input.refineRounds rounds groups))
  | 0, groups => by
    simp only [Input.refineRounds]
    cases input.refineTurn groups <;> rfl
  | rounds + 1, groups => by
    rw [Input.refineRounds]
    cases ht : input.refineTurn groups with
    | none => simp [Input.refineRounds, ht]
    | some next =>
      have hr : input.refineRounds (rounds + 1) groups = input.refineRounds rounds next := by
        rw [Input.refineRounds, ht]
      rw [hr]
      exact refineRounds_succ rounds next

theorem refineRounds_legal (h : Legal input groups) (rounds : ℕ) :
    Legal input (input.refineRounds rounds groups) ∧
      (∀ index, (input.refineRounds rounds groups index).ratio = (groups index).ratio) ∧
      (∀ index, (input.refineRounds rounds groups index).signals.length =
        (groups index).signals.length) ∧
      (grouped (input.refineRounds rounds groups)).Perm (grouped groups) := by
  induction rounds with
  | zero => exact ⟨h, fun _ => rfl, fun _ => rfl, .refl _⟩
  | succ rounds ih =>
    obtain ⟨hlg, hr, hl, hp⟩ := ih
    rw [refineRounds_succ]
    cases ht : input.refineTurn (input.refineRounds rounds groups) with
    | none => exact ⟨hlg, hr, hl, hp⟩
    | some next =>
      have hn := (refineTurn_spec hlg ht).1
      exact ⟨hn.legal, fun index => (hn.ratio_eq index).trans (hr index),
        fun index => (hn.length_eq index).trans (hl index), hn.perm.trans hp⟩

theorem exists_last_round (h : Legal input groups) :
    ∃ rounds, input.refineTurn (input.refineRounds rounds groups) = none := by
  by_contra hn
  simp only [not_exists] at hn
  have hl : ∀ rounds : ℕ, input.objective (input.refineRounds rounds groups) ≤
      input.objective groups - rounds * (1 / 1000000000000) := by
    intro rounds
    induction rounds with
    | zero => simp [Input.refineRounds]
    | succ rounds ih =>
      obtain ⟨next, hnx⟩ := Option.ne_none_iff_exists'.mp (hn rounds)
      have hlt := (refineTurn_spec (refineRounds_legal h rounds).1 hnx).1.objective_lt
      rw [refineRounds_succ, hnx, Option.getD_some]
      push_cast
      linarith
  obtain ⟨rounds, hr⟩ := exists_nat_gt (input.objective groups * 1000000000000)
  have hle := hl rounds
  have hnn := objective_nonneg input (input.refineRounds rounds groups)
  have : (rounds : ℚ) * (1 / 1000000000000) ≤ input.objective groups := by linarith
  linarith

end turn

end EmuFlow.PinPlanner
