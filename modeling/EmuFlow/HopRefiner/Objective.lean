import EmuFlow.Lib.MachineNumber
import EmuFlow.Lib.Reassign

/-!
# Hop-limit refinement: what an assignment costs

Clusters are assigned to parts; a net costs the hops between the part of its source and the parts
of its sinks, in doubles. An `Input` is one the reader accepts: its fields state the checks of
`read_input`. `netObjective` reads the parts of a net's own clusters only, so a move changes the
total by the nets at the moved clusters, as long as no sum is rounded.
-/

namespace EmuFlow.HopRefiner

open List

/-- `1.0e-9`. -/
def kEps : ℚ := Binary64.round (1 / 1000000000)

structure Cluster (numParts dims : ℕ) where
  part : Fin numParts
  /-- `-1` in the file when the cluster may move. -/
  fixedPart : Option (Fin numParts)
  weights : Fin dims → ℕ
  fixed_eq : ∀ fixed, fixedPart = some fixed → fixed = part

structure Net (n : ℕ) where
  weight : ℚ
  source : Fin n
  sinks : List (Fin n)
  weight_pos : 0 < weight
  sinks_ne : sinks ≠ []
  sinks_nodup : sinks.Nodup
  source_not_sink : source ∉ sinks

structure Input (numParts n dims : ℕ) where
  hopLimit : ℤ
  minUsedParts : ℤ
  distance : Fin numParts → Fin numParts → ℤ
  balanceBound : Fin numParts → Fin dims → ℚ
  hardCapacity : Fin numParts → Fin dims → ℤ
  clusters : Fin n → Cluster numParts dims
  nets : List (Net n)
  clusters_pos : 0 < n
  dimensions_pos : 0 < dims
  hopLimit_pos : 0 < hopLimit
  minUsed_pos : 0 < minUsedParts
  minUsed_le : minUsedParts ≤ numParts
  distance_self : ∀ part, distance part part = 0
  distance_ge : ∀ part sink, -1 ≤ distance part sink
  balance_nonneg : ∀ part dimension, 0 ≤ balanceBound part dimension
  hard_nonneg : ∀ part dimension, 0 ≤ hardCapacity part dimension

@[ext] structure Objective where
  violations : ℤ := 0
  unreachable : ℤ := 0
  weightedExcess : ℚ := 0
  weightedHops : ℚ := 0
  cutWeight : ℚ := 0
  usedPartDeficit : ℤ := 0
deriving DecidableEq

/-! ## comparison -/

def lessObjective (left right : Objective) : Bool :=
  if left.violations ≠ right.violations then
    left.violations < right.violations
  else if left.unreachable ≠ right.unreachable then
    left.unreachable < right.unreachable
  else if |Binary64.sub left.weightedExcess right.weightedExcess| > kEps then
    left.weightedExcess < right.weightedExcess
  else if |Binary64.sub left.weightedHops right.weightedHops| > kEps then
    left.weightedHops < right.weightedHops
  else if |Binary64.sub left.cutWeight right.cutWeight| > kEps then
    left.cutWeight < right.cutWeight
  else
    left.usedPartDeficit < right.usedPartDeficit

def equalObjective (left right : Objective) : Bool :=
  left.violations = right.violations &&
    left.unreachable = right.unreachable &&
    |Binary64.sub left.weightedExcess right.weightedExcess| ≤ kEps &&
    |Binary64.sub left.weightedHops right.weightedHops| ≤ kEps &&
    |Binary64.sub left.cutWeight right.cutWeight| ≤ kEps &&
    left.usedPartDeficit = right.usedPartDeficit

namespace Objective

def add (left right : Objective) : Objective where
  violations := left.violations + right.violations
  unreachable := left.unreachable + right.unreachable
  weightedExcess := Binary64.add left.weightedExcess right.weightedExcess
  weightedHops := Binary64.add left.weightedHops right.weightedHops
  cutWeight := Binary64.add left.cutWeight right.cutWeight
  usedPartDeficit := left.usedPartDeficit + right.usedPartDeficit

def subtract (left right : Objective) : Objective where
  violations := left.violations - right.violations
  unreachable := left.unreachable - right.unreachable
  weightedExcess := Binary64.sub left.weightedExcess right.weightedExcess
  weightedHops := Binary64.sub left.weightedHops right.weightedHops
  cutWeight := Binary64.sub left.cutWeight right.cutWeight
  usedPartDeficit := left.usedPartDeficit - right.usedPartDeficit

/-! ## exact sums

Without rounding the objectives are a group, so that sums over nets are list sums.
-/

instance : Zero Objective := ⟨{}⟩

instance : Add Objective where
  add left right :=
    { violations := left.violations + right.violations
      unreachable := left.unreachable + right.unreachable
      weightedExcess := left.weightedExcess + right.weightedExcess
      weightedHops := left.weightedHops + right.weightedHops
      cutWeight := left.cutWeight + right.cutWeight
      usedPartDeficit := left.usedPartDeficit + right.usedPartDeficit }

instance : Sub Objective where
  sub left right :=
    { violations := left.violations - right.violations
      unreachable := left.unreachable - right.unreachable
      weightedExcess := left.weightedExcess - right.weightedExcess
      weightedHops := left.weightedHops - right.weightedHops
      cutWeight := left.cutWeight - right.cutWeight
      usedPartDeficit := left.usedPartDeficit - right.usedPartDeficit }

instance : Neg Objective where
  neg value :=
    { violations := -value.violations
      unreachable := -value.unreachable
      weightedExcess := -value.weightedExcess
      weightedHops := -value.weightedHops
      cutWeight := -value.cutWeight
      usedPartDeficit := -value.usedPartDeficit }

variable (left right : Objective)

@[simp] theorem zero_violations : (0 : Objective).violations = 0 := rfl
@[simp] theorem zero_unreachable : (0 : Objective).unreachable = 0 := rfl
@[simp] theorem zero_weightedExcess : (0 : Objective).weightedExcess = 0 := rfl
@[simp] theorem zero_weightedHops : (0 : Objective).weightedHops = 0 := rfl
@[simp] theorem zero_cutWeight : (0 : Objective).cutWeight = 0 := rfl
@[simp] theorem zero_usedPartDeficit : (0 : Objective).usedPartDeficit = 0 := rfl

@[simp] theorem add_violations :
    (left + right).violations = left.violations + right.violations := rfl
@[simp] theorem add_unreachable :
    (left + right).unreachable = left.unreachable + right.unreachable := rfl
@[simp] theorem add_weightedExcess :
    (left + right).weightedExcess = left.weightedExcess + right.weightedExcess := rfl
@[simp] theorem add_weightedHops :
    (left + right).weightedHops = left.weightedHops + right.weightedHops := rfl
@[simp] theorem add_cutWeight : (left + right).cutWeight = left.cutWeight + right.cutWeight := rfl
@[simp] theorem add_usedPartDeficit :
    (left + right).usedPartDeficit = left.usedPartDeficit + right.usedPartDeficit := rfl

@[simp] theorem sub_usedPartDeficit :
    (left - right).usedPartDeficit = left.usedPartDeficit - right.usedPartDeficit := rfl

theorem sub_eq (left right : Objective) : left - right = left + -right := by
  ext
  · exact sub_eq_add_neg left.violations right.violations
  · exact sub_eq_add_neg left.unreachable right.unreachable
  · exact sub_eq_add_neg left.weightedExcess right.weightedExcess
  · exact sub_eq_add_neg left.weightedHops right.weightedHops
  · exact sub_eq_add_neg left.cutWeight right.cutWeight
  · exact sub_eq_add_neg left.usedPartDeficit right.usedPartDeficit

theorem neg_add_self (value : Objective) : -value + value = 0 := by
  ext
  · exact neg_add_cancel value.violations
  · exact neg_add_cancel value.unreachable
  · exact neg_add_cancel value.weightedExcess
  · exact neg_add_cancel value.weightedHops
  · exact neg_add_cancel value.cutWeight
  · exact neg_add_cancel value.usedPartDeficit

instance : AddCommGroup Objective where
  add_assoc a b c := by ext <;> simp [add_assoc]
  zero_add a := by ext <;> simp
  add_zero a := by ext <;> simp
  add_comm a b := by ext <;> simp [add_comm]
  nsmul := nsmulRec
  zsmul := zsmulRec
  sub_eq_add_neg := sub_eq
  neg_add_cancel := neg_add_self

end Objective

/-! ## the cost of an assignment -/

variable {numParts n dims : ℕ}

def sinkParts (net : Net n) (assignment : Fin n → Fin numParts) :
    List (Fin numParts) :=
  (finRange numParts).filter fun part =>
    part ≠ assignment net.source && net.sinks.any fun sink => assignment sink = part

def addSinkPart (input : Input numParts n dims) (weight : ℚ)
    (sourcePart : Fin numParts) (result : Objective) (sinkPart : Fin numParts) : Objective :=
  let hops := input.distance sourcePart sinkPart
  if hops < 0 then
    let penalty : ℚ := Binary64.mul weight
      (MachineInt.int32 (input.hopLimit + numParts + 1) : ℤ)
    { result with
      violations := result.violations + 1
      unreachable := result.unreachable + 1
      weightedExcess := Binary64.add result.weightedExcess penalty
      weightedHops := Binary64.add result.weightedHops penalty }
  else if hops > input.hopLimit then
    { result with
      violations := result.violations + 1
      weightedExcess := Binary64.add result.weightedExcess
        (Binary64.mul weight (hops - input.hopLimit : ℤ))
      weightedHops := Binary64.add result.weightedHops (Binary64.mul weight hops) }
  else
    { result with weightedHops := Binary64.add result.weightedHops (Binary64.mul weight hops) }

def netObjective (input : Input numParts n dims) (net : Net n)
    (assignment : Fin n → Fin numParts) : Objective :=
  let parts := sinkParts net assignment
  parts.foldl (addSinkPart input net.weight (assignment net.source))
    (if parts.isEmpty then {} else { cutWeight := net.weight })

def partCounts (assignment : Fin n → Fin numParts) (part : Fin numParts) : ℤ :=
  ∑ cluster, if assignment cluster = part then 1 else 0

def usedPartDeficit (input : Input numParts n dims)
    (counts : Fin numParts → ℤ) : ℤ :=
  max 0 (input.minUsedParts - Reassign.used counts)

def totalObjective (input : Input numParts n dims)
    (assignment : Fin n → Fin numParts) : Objective :=
  input.nets.foldl (fun result net => result.add (netObjective input net assignment))
    { usedPartDeficit := usedPartDeficit input (partCounts assignment) }

/-- The sum over some nets, as the moves take it. -/
def netsObjective (input : Input numParts n dims) (nets : List (Net n))
    (assignment : Fin n → Fin numParts) : Objective :=
  nets.foldl (fun total net => total.add (netObjective input net assignment)) {}

/-! ## sums over nets -/

variable {input : Input numParts n dims}

def Net.touches (net : Net n) (cluster : Fin n) : Bool :=
  net.source = cluster || net.sinks.contains cluster

theorem netObjective_congr {net : Net n} {a b : Fin n → Fin numParts}
    (h : ∀ cluster, net.touches cluster = true → a cluster = b cluster) :
    netObjective input net a = netObjective input net b := by
  have hs : a net.source = b net.source := h _ (by simp [Net.touches])
  have hp : sinkParts net a = sinkParts net b := by
    refine filter_congr fun part _ => ?_
    rw [hs]
    congr 1
    rw [Bool.eq_iff_iff, any_eq_true, any_eq_true]
    refine exists_congr fun sink => and_congr_right fun hsn => ?_
    rw [h sink (by simp [Net.touches, hsn])]
  simp only [netObjective, hp, hs]

theorem addSinkPart_deficit (weight : ℚ) (sourcePart sinkPart : Fin numParts) (result : Objective) :
    (addSinkPart input weight sourcePart result sinkPart).usedPartDeficit =
      result.usedPartDeficit := by
  simp only [addSinkPart]
  split_ifs <;> rfl

theorem netObjective_deficit (net : Net n) (a : Fin n → Fin numParts) :
    (netObjective input net a).usedPartDeficit = 0 := by
  have hf : ∀ (parts : List (Fin numParts)) (start : Objective), start.usedPartDeficit = 0 →
      (parts.foldl (addSinkPart input net.weight (a net.source)) start).usedPartDeficit = 0 := by
    intro parts
    induction parts with
    | nil => exact fun _ hs => hs
    | cons part parts ih =>
      exact fun start hs => ih _ (by rw [addSinkPart_deficit, hs])
  refine hf _ _ ?_
  split_ifs <;> rfl

theorem foldl_add_deficit (nets : List (Net n)) (a : Fin n → Fin numParts) (start : Objective) :
    (nets.foldl (fun r net => r.add (netObjective input net a)) start).usedPartDeficit =
      start.usedPartDeficit := by
  induction nets generalizing start with
  | nil => rfl
  | cons net nets ih =>
    rw [foldl_cons, ih, Objective.add, netObjective_deficit]
    exact add_zero _

@[simp] theorem totalObjective_deficit (a : Fin n → Fin numParts) :
    (totalObjective input a).usedPartDeficit = usedPartDeficit input (partCounts a) :=
  foldl_add_deficit _ _ _

theorem deficit_eq_zero {counts : Fin numParts → ℤ} :
    usedPartDeficit input counts = 0 ↔ input.minUsedParts ≤ Reassign.used counts := by
  rw [usedPartDeficit]
  omega

/-! ## when nothing is rounded -/

def weightedFields : List (Objective → ℚ) :=
  [Objective.weightedExcess, Objective.weightedHops, Objective.cutWeight]

/-- No assignment makes the nets cost more. -/
def costBound (numParts : ℕ) (reach : ℤ) (nets : List (Net n)) : ℚ :=
  (nets.map fun net => (numParts + 1) * (reach : ℚ) * net.weight).sum

/-- The net weights are multiples of a power of two above the tolerance, and together with the hops
a net may cost they leave room for every sum; integers do not wrap. -/
structure SumsExact (input : Input numParts n dims) (k reach : ℤ) : Prop where
  least : -1074 ≤ k
  most : k ≤ 971
  kEps_lt : kEps < 2 ^ k
  distance_le : ∀ part sink, input.distance part sink ≤ reach
  penalty_le : input.hopLimit + numParts + 1 ≤ reach
  reach_lt : reach < 2 ^ 31
  weight_mem : ∀ net ∈ input.nets, net.weight ∈ Binary64.grid k
  cost_lt : costBound numParts reach input.nets < 2 ^ 53 * 2 ^ k
  loads_lt : ∀ dimension, ∑ cluster, ((input.clusters cluster).weights dimension : ℤ) < 2 ^ 63

/-- The weighted fields are on the grid, up to a bound. -/
structure Objective.UpTo (k : ℤ) (bound : ℚ) (value : Objective) : Prop where
  grid : ∀ field ∈ weightedFields, field value ∈ Binary64.grid k
  nonneg : ∀ field ∈ weightedFields, 0 ≤ field value
  le : ∀ field ∈ weightedFields, field value ≤ bound

variable {k reach : ℤ} {bound bound' : ℚ} {x y : Objective}

theorem Objective.upTo_iff : x.UpTo k bound ↔
    (x.weightedExcess ∈ Binary64.grid k ∧ 0 ≤ x.weightedExcess ∧ x.weightedExcess ≤ bound) ∧
    (x.weightedHops ∈ Binary64.grid k ∧ 0 ≤ x.weightedHops ∧ x.weightedHops ≤ bound) ∧
    x.cutWeight ∈ Binary64.grid k ∧ 0 ≤ x.cutWeight ∧ x.cutWeight ≤ bound := by
  constructor
  · rintro ⟨hg, hn, hle⟩
    simp only [weightedFields, forall_mem_cons] at hg hn hle
    tauto
  · rintro h
    constructor <;> simp only [weightedFields, forall_mem_cons] <;> simp <;> tauto

theorem Objective.UpTo.mono (h : x.UpTo k bound) (hle : bound ≤ bound') : x.UpTo k bound' :=
  { h with le := fun field hf => (h.le field hf).trans hle }

theorem Objective.UpTo.add (hx : x.UpTo k bound) (hy : y.UpTo k bound') :
    (x + y).UpTo k (bound + bound') := by
  rw [Objective.upTo_iff] at *
  exact ⟨⟨add_mem hx.1.1 hy.1.1, add_nonneg hx.1.2.1 hy.1.2.1, add_le_add hx.1.2.2 hy.1.2.2⟩,
    ⟨add_mem hx.2.1.1 hy.2.1.1, add_nonneg hx.2.1.2.1 hy.2.1.2.1, add_le_add hx.2.1.2.2 hy.2.1.2.2⟩,
    add_mem hx.2.2.1 hy.2.2.1, add_nonneg hx.2.2.2.1 hy.2.2.2.1, add_le_add hx.2.2.2.2 hy.2.2.2.2⟩

theorem Objective.UpTo.zero (deficit : ℤ) :
    ({ usedPartDeficit := deficit } : Objective).UpTo k 0 := by
  simp [Objective.upTo_iff]

section scale

variable {a b : Fin n → Fin numParts} {nets : List (Net n)} (hexact : SumsExact input k reach)

include hexact

namespace SumsExact

theorem one_le_reach : (1 : ℚ) ≤ reach := by
  have hl := input.hopLimit_pos
  have hle := hexact.penalty_le
  exact_mod_cast (by omega : (1 : ℤ) ≤ reach)

theorem round_eq {v : ℚ} (hm : v ∈ Binary64.grid k) (hn : 0 ≤ v)
    (hle : v ≤ costBound numParts reach input.nets) : Binary64.round v = v :=
  Binary64.round_eq hexact.least hm
    (by rw [abs_of_nonneg hn]; exact hle.trans_lt hexact.cost_lt)

theorem add_eq (h : (x + y).UpTo k (costBound numParts reach input.nets)) : x.add y = x + y := by
  obtain ⟨he, hh, hc⟩ := Objective.upTo_iff.mp h
  ext
  · rfl
  · rfl
  · exact hexact.round_eq he.1 he.2.1 he.2.2
  · exact hexact.round_eq hh.1 hh.2.1 hh.2.2
  · exact hexact.round_eq hc.1 hc.2.1 hc.2.2
  · rfl

theorem subtract_eq (h : (x - y).UpTo k (costBound numParts reach input.nets)) :
    x.subtract y = x - y := by
  obtain ⟨he, hh, hc⟩ := Objective.upTo_iff.mp h
  ext
  · rfl
  · rfl
  · exact hexact.round_eq he.1 he.2.1 he.2.2
  · exact hexact.round_eq hh.1 hh.2.1 hh.2.2
  · exact hexact.round_eq hc.1 hc.2.1 hc.2.2
  · rfl

theorem cost_nonneg (net : Net n) : 0 ≤ (numParts + 1) * (reach : ℚ) * net.weight :=
  mul_nonneg (mul_nonneg (by positivity) (zero_le_one.trans hexact.one_le_reach)) net.weight_pos.le

theorem costBound_nonneg (nets : List (Net n)) : 0 ≤ costBound numParts reach nets :=
  sum_nonneg (by simpa using fun net _ => hexact.cost_nonneg net)

theorem costBound_le (hs : nets.Sublist input.nets) :
    costBound numParts reach nets ≤ costBound numParts reach input.nets :=
  (hs.map _).sum_le_sum (by simpa using fun net _ => hexact.cost_nonneg net)

variable {net : Net n} (hnet : net ∈ input.nets)

include hnet

theorem net_le : (numParts + 1) * (reach : ℚ) * net.weight ≤ costBound numParts reach
    input.nets := by
  have hle := hexact.costBound_le (singleton_sublist.mpr hnet)
  simpa [costBound] using hle

/-- A net that reaches one part more costs at most `reach` times its weight more. -/
theorem add_mul_upTo {v c : ℚ} {hops : ℤ} (hge : 0 ≤ hops) (hle : hops ≤ reach)
    (hv : v ∈ Binary64.grid k ∧ 0 ≤ v ∧ v ≤ c)
    (hr : c + reach * net.weight ≤ costBound numParts reach input.nets) :
    Binary64.add v (Binary64.mul net.weight hops) ∈ Binary64.grid k ∧
      0 ≤ Binary64.add v (Binary64.mul net.weight hops) ∧
      Binary64.add v (Binary64.mul net.weight hops) ≤ c + reach * net.weight := by
  obtain ⟨hmm, hn, hvc⟩ := hv
  have ht : 0 ≤ net.weight * hops := mul_nonneg net.weight_pos.le (by exact_mod_cast hge)
  have htm : net.weight * hops ≤ reach * net.weight := by
    rw [mul_comm]
    exact mul_le_mul_of_nonneg_right (by exact_mod_cast hle) net.weight_pos.le
  have hg := Binary64.intCast_mul_mem_grid (hexact.weight_mem net hnet) hops
  have hm : Binary64.mul net.weight hops = net.weight * hops :=
    hexact.round_eq hg ht (by linarith)
  have ha : Binary64.add v (net.weight * hops) = v + net.weight * hops :=
    hexact.round_eq (add_mem hmm hg) (by linarith) (by linarith)
  rw [hm, ha]
  exact ⟨add_mem hmm hg, by linarith, by linarith⟩

theorem addSinkPart_upTo (sourcePart sinkPart : Fin numParts) {value : Objective} {c : ℚ}
    (hvl : value.UpTo k c)
    (hr : c + reach * net.weight ≤ costBound numParts reach input.nets) :
    (addSinkPart input net.weight sourcePart value sinkPart).UpTo k (c + reach * net.weight) := by
  have hsy : 0 ≤ reach * net.weight :=
    mul_nonneg (zero_le_one.trans hexact.one_le_reach) net.weight_pos.le
  have hl := input.hopLimit_pos
  have hp := hexact.penalty_le
  have hrc := hexact.reach_lt
  have hd := hexact.distance_le sourcePart sinkPart
  have hi : MachineInt.int32 (input.hopLimit + numParts + 1) = input.hopLimit + numParts + 1 :=
    MachineInt.int32_eq (by omega) (by omega)
  obtain ⟨he, hh, hc⟩ := Objective.upTo_iff.mp hvl
  have hs := fun {v : ℚ} {hops : ℤ} (hge : 0 ≤ hops) (hle : hops ≤ reach)
    (hv : v ∈ Binary64.grid k ∧ 0 ≤ v ∧ v ≤ c) => hexact.add_mul_upTo hnet hge hle hv hr
  have hct : value.cutWeight ≤ c + reach * net.weight := by linarith [hc.2.2]
  rw [Objective.upTo_iff]
  simp only [addSinkPart, hi]
  split_ifs with hf hln
  · exact ⟨hs (by omega) hp he, hs (by omega) hp hh, hc.1, hc.2.1, hct⟩
  · exact ⟨hs (by omega) (by omega) he, hs (by omega) hd hh, hc.1, hc.2.1, hct⟩
  · exact ⟨⟨he.1, he.2.1, by linarith [he.2.2]⟩, hs (by omega) hd hh, hc.1, hc.2.1, hct⟩

theorem netObjective_upTo (a : Fin n → Fin numParts) :
    (netObjective input net a).UpTo k ((numParts + 1) * reach * net.weight) := by
  have hr := hexact.one_le_reach
  have hw := net.weight_pos
  have hf : ∀ (parts : List (Fin numParts)) (value : Objective) (c : ℚ), value.UpTo k c →
      c + parts.length * (reach * net.weight) ≤ costBound numParts reach input.nets →
      (parts.foldl (addSinkPart input net.weight (a net.source)) value).UpTo k
        (c + parts.length * (reach * net.weight)) := by
    intro parts
    induction parts with
    | nil => exact fun value c hv _ => hv.mono (by simp)
    | cons part parts ih =>
      intro value c hv hrm
      have hrs : 0 ≤ parts.length * (reach * net.weight) := by positivity
      rw [length_cons, Nat.cast_add_one, add_mul, one_mul] at hrm
      have hn := ih _ _ (hexact.addSinkPart_upTo hnet (a net.source) part hv (by linarith))
        (by linarith)
      refine hn.mono ?_
      rw [length_cons, Nat.cast_add_one, add_mul, one_mul]
      linarith
  have hl : ((sinkParts net a).length : ℚ) * (reach * net.weight) ≤
      numParts * (reach * net.weight) := by
    have hle : (sinkParts net a).length ≤ numParts :=
      (length_filter_le _ _).trans_eq length_finRange
    exact mul_le_mul_of_nonneg_right (by exact_mod_cast hle) (by positivity)
  have hc : net.weight ≤ reach * net.weight := le_mul_of_one_le_left hw.le hr
  have hb := hexact.net_le hnet
  refine (hf (sinkParts net a) _ net.weight ?_ (by linarith)).mono (by linarith)
  split_ifs
  · exact (Objective.UpTo.zero 0).mono hw.le
  · rw [Objective.upTo_iff]
    simp [hw.le, hexact.weight_mem net hnet]

omit hnet

theorem sum_upTo (a : Fin n → Fin numParts) : ∀ {nets : List (Net n)}, nets.Sublist input.nets →
    (nets.map fun net => netObjective input net a).sum.UpTo k (costBound numParts reach nets)
  | [], _ => Objective.UpTo.zero 0
  | net :: nets, hs => by
    rw [map_cons, sum_cons, costBound, map_cons, sum_cons]
    exact (hexact.netObjective_upTo (hs.subset mem_cons_self) a).add
      (sum_upTo a (sublist_of_cons_sublist hs))

/-- A sum that has room is the exact one. -/
theorem foldl_eq (a : Fin n → Fin numParts) : ∀ {nets : List (Net n)} {start : Objective} {c : ℚ},
    (∀ net ∈ nets, net ∈ input.nets) → start.UpTo k c →
    c + costBound numParts reach nets ≤ costBound numParts reach input.nets →
    nets.foldl (fun r net => r.add (netObjective input net a)) start =
      start + (nets.map fun net => netObjective input net a).sum
  | [], start, _, _, _, _ => by simp
  | net :: nets, start, c, hn, hs, hr => by
    obtain ⟨hnet, hn⟩ := forall_mem_cons.mp hn
    rw [costBound, map_cons, sum_cons, ← costBound] at hr
    have hrs := hexact.costBound_nonneg nets
    have hnx := hs.add (hexact.netObjective_upTo hnet a)
    rw [foldl_cons, hexact.add_eq (hnx.mono (by linarith)),
      foldl_eq a hn hnx (by linarith), map_cons, sum_cons, add_assoc]

theorem totalObjective_eq (a : Fin n → Fin numParts) : totalObjective input a =
      { usedPartDeficit := usedPartDeficit input (partCounts a) } +
        (input.nets.map fun net => netObjective input net a).sum :=
  hexact.foldl_eq a (fun _ h => h) (Objective.UpTo.zero _) (by simp)

theorem netsObjective_eq (a : Fin n → Fin numParts) (hs : nets.Sublist input.nets) :
    netsObjective input nets a = (nets.map fun net => netObjective input net a).sum := by
  have heq := hexact.foldl_eq a (fun net hnet => hs.subset hnet) (Objective.UpTo.zero 0)
    (by simpa using hexact.costBound_le hs)
  exact heq.trans (zero_add _)

theorem totalObjective_upTo (a : Fin n → Fin numParts) :
    (totalObjective input a).UpTo k (costBound numParts reach input.nets) := by
  rw [hexact.totalObjective_eq]
  exact ((Objective.UpTo.zero _).add (hexact.sum_upTo a (List.Sublist.refl _))).mono (by simp)

end SumsExact

/-- The nets marked `affected` carry the whole change, up to the deficit. -/
theorem totalObjective_update {affected : Net n → Bool} {deficit : ℤ}
    (h : ∀ net ∈ input.nets, affected net = false → ∀ cluster, net.touches cluster = true →
      b cluster = a cluster)
    (hd : deficit = usedPartDeficit input (partCounts b)) :
    ({ ((totalObjective input a).subtract
          (netsObjective input (input.nets.filter affected) a)).add
          (netsObjective input (input.nets.filter affected) b) with
      usedPartDeficit := deficit } : Objective) = totalObjective input b := by
  let others := input.nets.filter fun net => !affected net
  have hs : ∀ asg : Fin n → Fin numParts,
      (input.nets.map fun net => netObjective input net asg).sum =
        (others.map fun net => netObjective input net asg).sum +
          ((input.nets.filter affected).map fun net => netObjective input net asg).sum := by
    intro asg
    rw [← ((filter_append_perm affected input.nets).map _).sum_eq, map_append,
      sum_append, add_comm]
  have hc : costBound numParts reach others +
      costBound numParts reach (input.nets.filter affected) =
        costBound numParts reach input.nets := by
    rw [costBound, costBound, costBound,
      ← ((filter_append_perm affected input.nets).map _).sum_eq, map_append,
      sum_append, add_comm]
  have ho : (others.map fun net => netObjective input net b).sum =
      (others.map fun net => netObjective input net a).sum := by
    congr 1
    refine map_congr_left fun net hnet => ?_
    obtain ⟨hm, ha⟩ := mem_filter.mp hnet
    exact netObjective_congr (h net hm (by simpa using ha))
  have hb := (Objective.UpTo.zero (usedPartDeficit input (partCounts a))).add
    (hexact.sum_upTo a (filter_sublist : others.Sublist input.nets))
  rw [zero_add] at hb
  have ha := hexact.sum_upTo b (filter_sublist (p := affected))
  have hle := hexact.costBound_le (filter_sublist : others.Sublist input.nets)
  -- what is left after the subtraction is the deficit and the other nets
  have hl : totalObjective input a - netsObjective input (input.nets.filter affected) a =
      { usedPartDeficit := usedPartDeficit input (partCounts a) } +
        (others.map fun net => netObjective input net a).sum := by
    rw [hexact.totalObjective_eq, hexact.netsObjective_eq a filter_sublist, hs a]
    abel
  rw [hexact.subtract_eq (hl ▸ hb.mono hle), hl,
    hexact.netsObjective_eq b filter_sublist,
    hexact.add_eq ((hb.add ha).mono hc.le), hexact.totalObjective_eq b, hs b,
    ho, add_assoc]
  subst hd
  have hz : ∀ nets : List (Net n),
      (nets.map fun net => netObjective input net b).sum.usedPartDeficit = 0 := by
    intro nets
    induction nets with
    | nil => rfl
    | cons net nets ih =>
      rw [map_cons, sum_cons, Objective.add_usedPartDeficit, netObjective_deficit, ih]
      rfl
  have hsm : ((others.map fun net => netObjective input net a).sum +
      ((input.nets.filter affected).map fun net => netObjective input net b).sum).usedPartDeficit =
        0 := by
    rw [Objective.add_usedPartDeficit, ← ho, hz, hz]
    rfl
  ext
  · rfl
  · rfl
  · rfl
  · rfl
  · rfl
  · rw [Objective.add_usedPartDeficit, hsm]
    exact (add_zero _).symm

/-! ## the comparison

Two values on the grid are within the tolerance only when they are the same.
-/

theorem SumsExact.far_iff (hx : x.UpTo k (costBound numParts reach input.nets))
    (hy : y.UpTo k (costBound numParts reach input.nets)) {field : Objective → ℚ}
    (hf : field ∈ weightedFields) :
    |Binary64.sub (field x) (field y)| > kEps ↔ field x ≠ field y := by
  have hg := sub_mem (hx.grid field hf) (hy.grid field hf)
  have hlt : |field x - field y| < 2 ^ 53 * 2 ^ k := by
    refine lt_of_le_of_lt (abs_le.mpr ⟨?_, ?_⟩) hexact.cost_lt
    · linarith [hx.nonneg field hf, hy.le field hf]
    · linarith [hy.nonneg field hf, hx.le field hf]
  rw [Binary64.sub, Binary64.round_eq hexact.least hg hlt, gt_iff_lt]
  constructor
  · rintro hgt heq
    rw [heq, sub_self, abs_zero] at hgt
    exact absurd hgt (by decide +kernel)
  · intro hne
    by_contra hc
    exact hne (Binary64.eq_of_mem_grid (hx.grid field hf) (hy.grid field hf)
      ((not_lt.mp hc).trans_lt hexact.kEps_lt))

omit hexact in
/-- One level of the comparison decides when the two values differ at it. -/
theorem lex_trans {α : Type} [LinearOrder α] {u v w : α} {r12 r23 r13 : Bool}
    (hr : r12 = true → r23 = true → r13 = true) :
    (if u ≠ v then decide (u < v) else r12) = true →
      (if v ≠ w then decide (v < w) else r23) = true →
        (if u ≠ w then decide (u < w) else r13) = true := by
  intro h12 h23
  by_cases huv : u = v
  · subst huv
    rw [if_neg (not_not.mpr rfl)] at h12
    split_ifs at h23 ⊢ with hu
    · exact h23
    · exact hr h12 h23
  · rw [if_pos huv, decide_eq_true_eq] at h12
    have hu : u < w := by
      split_ifs at h23 with hv
      · exact h12.trans (of_decide_eq_true h23)
      · rwa [← not_not.mp hv]
    rw [if_pos hu.ne, decide_eq_true_eq]
    exact hu

theorem lessObjective_trans {z : Objective} (hx : x.UpTo k (costBound numParts reach input.nets))
    (hy : y.UpTo k (costBound numParts reach input.nets))
    (hz : z.UpTo k (costBound numParts reach input.nets)) (hxy : lessObjective x y = true)
    (hyz : lessObjective y z = true) : lessObjective x z = true := by
  have hl : ∀ {u v : Objective}, u.UpTo k (costBound numParts reach input.nets) →
      v.UpTo k (costBound numParts reach input.nets) → lessObjective u v =
        if u.violations ≠ v.violations then decide (u.violations < v.violations)
        else if u.unreachable ≠ v.unreachable then decide (u.unreachable < v.unreachable)
        else if u.weightedExcess ≠ v.weightedExcess then decide
          (u.weightedExcess < v.weightedExcess)
        else if u.weightedHops ≠ v.weightedHops then decide (u.weightedHops < v.weightedHops)
        else if u.cutWeight ≠ v.cutWeight then decide (u.cutWeight < v.cutWeight)
        else decide (u.usedPartDeficit < v.usedPartDeficit) := by
    intro u v hu hv
    have hf : ∀ field ∈ weightedFields, |Binary64.sub (field u) (field v)| > kEps ↔
        field u ≠ field v := fun _ => hexact.far_iff hu hv
    simp only [lessObjective, hf Objective.weightedExcess (by simp [weightedFields]),
      hf Objective.weightedHops (by simp [weightedFields]),
      hf Objective.cutWeight (by simp [weightedFields])]
  rw [hl hx hy] at hxy
  rw [hl hy hz] at hyz
  rw [hl hx hz]
  refine lex_trans (lex_trans (lex_trans (lex_trans (lex_trans ?_)))) hxy hyz
  simp only [decide_eq_true_eq]
  exact lt_trans

end scale

end EmuFlow.HopRefiner
