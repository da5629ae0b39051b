import EmuFlow.Lib.SortedSet
import Mathlib

/-!
# The best move within bounds

`OrthantMaximumTree` of `native/mfspart_refiner_checker.cpp`. A tree node keeps the box around its
points and their best candidates, so that a query only goes into boxes across the bounds.
-/

namespace EmuFlow.MfsPart.RefinerChecker

open SortedSet List
open Function (update update_of_ne update_self)

/-- `Candidate`; an inactive one has the defaults. No comparison reads the gain. -/
structure Candidate where
  rank : ℤ := -2 ^ 63
  node : ℤ := -1
  target : ℤ := -1
  gain : WithBot ℚ := ⊥

def better (left right : Candidate) : Bool :=
  if left.node < 0 then false
  else if right.node < 0 then true
  else if left.rank ≠ right.rank then left.rank > right.rank
  else if left.node ≠ right.node then left.node < right.node
  else left.target < right.target

def maximum (left right : Candidate) : Candidate := if better right left then right else left

/-- The tree nodes under an index, `nil` for -1. -/
inductive Tree (n numParts dims : ℕ) where
  | nil
  | node (point : Fin n) (minimum maximum : Fin dims → ℤ) (own best : Fin numParts → Candidate)
      (left right : Tree n numParts dims)

variable {n numParts dims : ℕ}

namespace Tree

def points : Tree n numParts dims → List (Fin n)
  | nil => []
  | node point _ _ _ _ left right => point :: (left.points ++ right.points)

def lower (bound : Fin dims → ℤ) : Tree n numParts dims → Fin dims → ℤ
  | nil, i => bound i
  | node _ minimum _ _ _ _ _, i => min (bound i) (minimum i)

def upper (bound : Fin dims → ℤ) : Tree n numParts dims → Fin dims → ℤ
  | nil, i => bound i
  | node _ _ maximum _ _ _ _, i => max (bound i) (maximum i)

def raise (value : Candidate) (target : Fin numParts) : Tree n numParts dims → Candidate
  | nil => value
  | node _ _ _ _ best _ _ => RefinerChecker.maximum value (best target)

/-- A tree node after `recompute_all`. -/
def recomputeAll (point : Fin n) (minimum maximum : Fin dims → ℤ)
    (own : Fin numParts → Candidate) (left right : Tree n numParts dims) : Tree n numParts dims :=
  node point minimum maximum own
    (fun target => right.raise (left.raise (own target) target) target) left right

/-- The tree nodes on the way up from a point are recomputed. -/
def replace (point : Fin n) (candidates : Fin numParts → Candidate) :
    Tree n numParts dims → Tree n numParts dims
  | nil => nil
  | node p minimum maximum own _ left right =>
    if p = point then recomputeAll p minimum maximum candidates left right
    else if left.points.contains point then
      recomputeAll p minimum maximum own (left.replace point candidates) right
    else recomputeAll p minimum maximum own left (right.replace point candidates)

def setPoint (tree : Tree n numParts dims) (point : Fin n)
    (candidates : Fin numParts → Candidate) : Option (Tree n numParts dims) :=
  if tree.points.contains point then some (tree.replace point candidates) else none

variable (weights : Fin n → Fin dims → ℤ)

def query (target : Fin numParts) (bounds : Fin dims → ℤ) : Tree n numParts dims → Candidate
  | nil => {}
  | node point minimum maximum own best left right =>
    if ∃ i, bounds i < minimum i then {}
    else if ∀ i, maximum i ≤ bounds i then best target
    else RefinerChecker.maximum
      (RefinerChecker.maximum (if ∀ i, weights point i ≤ bounds i then own target else {})
        (left.query target bounds))
      (right.query target bounds)

/-- The middle point in the order of an axis is the root, as `nth_element` finds it, and the others
lie to its sides; all candidates are inactive. -/
def build [NeZero dims] (points : List (Fin n)) (depth : ℕ) : Tree n numParts dims :=
  let arranged := sortedBy (fun point => lex (weights point (Fin.ofNat dims depth)) point) points
  match h : arranged.drop (points.length / 2) with
  | [] => nil
  | point :: rest =>
    let left := build (arranged.take (points.length / 2)) (depth + 1)
    let right := build rest (depth + 1)
    recomputeAll point (right.lower (left.lower (weights point)))
      (right.upper (left.upper (weights point))) (fun _ => {}) left right
termination_by points.length
decreasing_by
  all_goals
    have hlen := congrArg length h
    rw [length_drop, length_sortedBy, length_cons] at hlen
  · rw [length_take, length_sortedBy]
    omega
  · omega

end Tree

/-! ## best candidates -/

theorem better_trans {a b c : Candidate} (ha : better a b = true) (hb : better b c = true) :
    better a c = true := by
  unfold better at *
  split_ifs at * <;> simp_all <;> omega

theorem better_or_better {a c : Candidate} (b : Candidate) (ha : better a c = true) :
    better a b = true ∨ better b c = true := by
  unfold better at *
  split_ifs at * <;> simp_all <;> omega

theorem maximum_assoc (a b c : Candidate) :
    maximum (maximum a b) c = maximum a (maximum b c) := by
  unfold maximum
  cases hb : better b a <;> cases hc : better c b
  · -- `a` is kept twice
    have hca : better c a = false := Bool.eq_false_iff.mpr fun h =>
      (better_or_better b h).elim (Bool.eq_false_iff.mp hc) (Bool.eq_false_iff.mp hb)
    simp [hb, hca]
  · simp
  · simp [hb, hc]
  · simp [hc, better_trans hc hb]

/-- The best candidate of the points, one after the other. -/
def bestOf (own : Fin n → Fin numParts → Candidate) (target : Fin numParts)
    (points : List (Fin n)) : Candidate :=
  (points.map (own · target)).foldl maximum {}

/-- Inactive candidates have the defaults, and active ones name their points. -/
def Named (own : Fin n → Fin numParts → Candidate) : Prop :=
  ∀ p target, own p target = {} ∨ (own p target).node = p

variable {own : Fin n → Fin numParts → Candidate} {target : Fin numParts}

theorem bestOf_concat (l : List (Fin n)) (p : Fin n) :
    bestOf own target (l ++ [p]) = maximum (bestOf own target l) (own p target) := by
  rw [bestOf, map_append, foldl_append]
  rfl

theorem bestOf_append (l m : List (Fin n)) :
    bestOf own target (l ++ m) = maximum (bestOf own target l) (bestOf own target m) := by
  induction m using List.reverseRecOn with
  | nil =>
    rw [append_nil]
    rfl
  | append_singleton m p ih =>
    rw [← append_assoc, bestOf_concat, ih, bestOf_concat, maximum_assoc]

theorem bestOf_singleton (hn : Named own) (p : Fin n) :
    bestOf own target [p] = own p target := by
  rcases hn p target with h | h
  · rw [bestOf, map_singleton, h]
    rfl
  · exact if_pos (by simp [better, h])

theorem maximum_comm (hn : Named own) (p q : Fin n) :
    maximum (own p target) (own q target) = maximum (own q target) (own p target) := by
  rcases hn p target with hp | hp <;> rcases hn q target with hq | hq
  · rw [hp, hq]
  · simp [maximum, better, hp, hq]
  · simp [maximum, better, hp, hq]
  · by_cases heq : p = q
    · rw [heq]
    · have hne : (p : ℤ) ≠ q := fun h => heq (Fin.ext (Int.natCast_inj.mp h))
      unfold maximum better
      split_ifs <;> simp_all <;> omega

theorem bestOf_perm (hn : Named own) {l m : List (Fin n)} (h : l.Perm m) :
    bestOf own target l = bestOf own target m := by
  refine (h.map (own · target)).foldl_eq' (fun a ha b hb c => ?_) _
  obtain ⟨p, -, rfl⟩ := mem_map.mp ha
  obtain ⟨q, -, rfl⟩ := mem_map.mp hb
  rw [maximum_assoc, maximum_comm hn, maximum_assoc]

/-! ## boxes -/

def within (weights : Fin n → Fin dims → ℤ) (bounds : Fin dims → ℤ) (points : List (Fin n)) :
    List (Fin n) :=
  points.filter fun p => ∀ i, weights p i ≤ bounds i

def Boxed (weights : Fin n → Fin dims → ℤ) (minimum maximum : Fin dims → ℤ)
    (points : List (Fin n)) : Prop :=
  ∀ p ∈ points, ∀ i, minimum i ≤ weights p i ∧ weights p i ≤ maximum i

/-- Every tree node has the candidates of its point, a box around the points below it and their
best candidates. -/
def Good (weights : Fin n → Fin dims → ℤ) (own : Fin n → Fin numParts → Candidate) :
    Tree n numParts dims → Prop
  | .nil => True
  | .node point minimum maximum candidates best left right =>
    candidates = own point ∧
      Boxed weights minimum maximum (point :: (left.points ++ right.points)) ∧
      (∀ target, best target = bestOf own target (point :: (left.points ++ right.points))) ∧
      Good weights own left ∧ Good weights own right

section

variable {weights : Fin n → Fin dims → ℤ} {tree left right : Tree n numParts dims}

theorem Good.raise (h : Good weights own tree) (l : List (Fin n)) :
    tree.raise (bestOf own target l) target = bestOf own target (l ++ tree.points) := by
  cases tree with
  | nil => rw [Tree.points, append_nil, Tree.raise]
  | node point minimum maximum candidates best left right =>
    obtain ⟨-, -, hb, -⟩ := h
    rw [Tree.raise, hb, Tree.points, bestOf_append]

theorem Good.recomputeAll (hn : Named own) {point : Fin n}
    {minimum maximum : Fin dims → ℤ} {candidates : Fin numParts → Candidate}
    (ho : candidates = own point)
    (hb : Boxed weights minimum maximum (point :: (left.points ++ right.points)))
    (hl : Good weights own left) (hr : Good weights own right) :
    Good weights own (Tree.recomputeAll point minimum maximum candidates left right) := by
  refine ⟨ho, hb, fun target => ?_, hl, hr⟩
  have hp : bestOf own target [point] = own point target :=
    bestOf_singleton hn point
  dsimp only
  rw [ho, ← hp, hl.raise, hr.raise, append_assoc]
  rfl

theorem Good.congr {own' : Fin n → Fin numParts → Candidate} (h : Good weights own tree)
    (ho : ∀ p ∈ tree.points, own p = own' p) : Good weights own' tree := by
  induction tree with
  | nil => trivial
  | node point minimum maximum candidates best left right ihl ihr =>
    obtain ⟨hpn, hbx, hb, hl, hr⟩ := h
    have ha : ∀ p ∈ point :: (left.points ++ right.points), own p = own' p := ho
    refine ⟨hpn.trans (ho point mem_cons_self), hbx, fun target => ?_,
      ihl hl fun p hp => ha p (mem_cons_of_mem _ (mem_append_left _ hp)),
      ihr hr fun p hp => ha p (mem_cons_of_mem _ (mem_append_right _ hp))⟩
    rw [hb, bestOf, bestOf, map_congr_left fun p hp => congrFun (ha p hp) target]

theorem Good.query (hn : Named own) (h : Good weights own tree)
    (target : Fin numParts) (bounds : Fin dims → ℤ) :
    tree.query weights target bounds =
      bestOf own target (within weights bounds tree.points) := by
  induction tree with
  | nil => rfl
  | node point minimum maximum candidates best left right ihl ihr =>
    obtain ⟨hpn, hbx, hbs, hl, hr⟩ := h
    rw [Tree.query, Tree.points, within]
    by_cases hb : ∃ i, bounds i < minimum i
    · -- the box lies outside the bounds
      obtain ⟨i, hi⟩ := hb
      rw [if_pos ⟨i, hi⟩, filter_eq_nil_iff.mpr fun p hp hf => ?_]
      · rfl
      · exact absurd (of_decide_eq_true hf i) (not_le.mpr (hi.trans_le (hbx p hp i).1))
    rw [if_neg hb]
    by_cases hin : ∀ i, maximum i ≤ bounds i
    · rw [if_pos hin, hbs, filter_eq_self.mpr fun p hp =>
        decide_eq_true fun i => (hbx p hp i).2.trans (hin i)]
    · have hs : (if ∀ i, weights point i ≤ bounds i then candidates target else {}) =
          bestOf own target (within weights bounds [point]) := by
        by_cases hf : ∀ i, weights point i ≤ bounds i
        · rw [if_pos hf, within, filter_singleton, decide_eq_true hf, hpn]
          exact (bestOf_singleton hn point).symm
        · rw [if_neg hf, within, filter_singleton, decide_eq_false hf]
          rfl
      rw [if_neg hin, ihl hl, ihr hr, hs, ← bestOf_append, ← bestOf_append, append_assoc,
        within, within, within, ← filter_append, ← filter_append]
      rfl

@[simp] theorem points_replace (point : Fin n) (candidates : Fin numParts → Candidate)
    (tree : Tree n numParts dims) : (tree.replace point candidates).points = tree.points := by
  induction tree with
  | nil => rfl
  | node p minimum maximum own best left right ihl ihr =>
    rw [Tree.replace]
    split_ifs <;> simp [Tree.recomputeAll, Tree.points, ihl, ihr]

theorem Good.replace {point : Fin n} {candidates : Fin numParts → Candidate}
    (hn : Named (update own point candidates))
    (h : Good weights own tree) (hnd : tree.points.Nodup) :
    Good weights (update own point candidates) (tree.replace point candidates) := by
  have hot : ∀ {t : Tree n numParts dims}, Good weights own t → point ∉ t.points →
      Good weights (update own point candidates) t := fun h hou =>
    h.congr fun q hq => (update_of_ne (ne_of_mem_of_not_mem hq hou) _ _).symm
  induction tree with
  | nil => trivial
  | node p minimum maximum own' best left right ihl ihr =>
    obtain ⟨ho, hb, -, hl, hr⟩ := h
    obtain ⟨hp, hnd⟩ := nodup_cons.mp hnd
    obtain ⟨hnl, hnr, ha⟩ := nodup_append.mp hnd
    rw [Tree.replace]
    by_cases heq : p = point
    · rw [if_pos heq]
      subst heq
      exact Good.recomputeAll hn (update_self p candidates own).symm hb
        (hot hl fun hin => hp (mem_append_left _ hin))
        (hot hr fun hin => hp (mem_append_right _ hin))
    rw [if_neg heq]
    have ho' : own' = update own point candidates p := ho.trans (update_of_ne heq _ _).symm
    by_cases hin : point ∈ left.points
    · rw [if_pos (contains_iff_mem.mpr hin)]
      exact Good.recomputeAll hn ho' (by rwa [points_replace]) (ihl hl hnl)
        (hot hr fun hin' => ha point hin point hin' rfl)
    · rw [if_neg (mt contains_iff_mem.mp hin)]
      exact Good.recomputeAll hn ho' (by rwa [points_replace]) (hot hl hin) (ihr hr hnr)

theorem Good.covers (h : Good weights own tree) (lo hi : Fin dims → ℤ) (i : Fin dims) :
    (tree.lower lo i ≤ lo i ∧ hi i ≤ tree.upper hi i) ∧
      ∀ p ∈ tree.points, tree.lower lo i ≤ weights p i ∧ weights p i ≤ tree.upper hi i := by
  cases tree with
  | nil => exact ⟨⟨le_rfl, le_rfl⟩, fun p hp => absurd hp not_mem_nil⟩
  | node point minimum maximum candidates best left right =>
    refine ⟨⟨min_le_left _ _, le_max_left _ _⟩, fun p hp => ?_⟩
    obtain ⟨hm, hmax⟩ := h.2.1 p hp i
    exact ⟨(min_le_right _ _).trans hm, hmax.trans (le_max_right _ _)⟩

theorem build_spec [NeZero dims] (weights : Fin n → Fin dims → ℤ) (points : List (Fin n))
    (depth : ℕ) :
    (Tree.build weights points depth : Tree n numParts dims).points.Perm points ∧
      Good weights (fun _ _ => {}) (Tree.build weights points depth : Tree n numParts dims) := by
  fun_induction Tree.build weights points depth with
  | case1 points depth arranged h =>
    have hlen := congrArg length h
    rw [length_drop, length_sortedBy, length_nil] at hlen
    have hn : points = [] := length_eq_zero_iff.mp (by omega)
    rw [hn]
    exact ⟨.nil, trivial⟩
  | case2 points depth arranged point rest h left right ihl ihr =>
    have hpr : (point :: (left.points ++ right.points)).Perm points := calc
      point :: (left.points ++ right.points) ~
          point :: (arranged.take (points.length / 2) ++ rest) :=
        .cons point (ihl.1.append ihr.1)
      _ ~ arranged.take (points.length / 2) ++ point :: rest := perm_middle.symm
      _ = arranged := by rw [← h, take_append_drop]
      _ ~ points := sortedBy_perm _ points
    refine ⟨hpr, Good.recomputeAll (fun _ _ => .inl rfl) rfl (fun p hp i => ?_) ihl.2 ihr.2⟩
    obtain ⟨⟨hlo, hh⟩, hl⟩ := ihl.2.covers (weights point) (weights point) i
    obtain ⟨⟨hlo', hh'⟩, hr⟩ :=
      ihr.2.covers (left.lower (weights point)) (left.upper (weights point)) i
    rcases mem_cons.mp hp with rfl | hp
    · exact ⟨hlo'.trans hlo, hh.trans hh'⟩
    · rcases List.mem_append.mp hp with hp | hp
      · exact ⟨hlo'.trans (hl p hp).1, (hl p hp).2.trans hh'⟩
      · exact hr p hp

end

/-! ## runs -/

/-- What `candidates_for` gives for a node: candidates that name it, and inactive ones. -/
structure PointUpdate (n numParts : ℕ) where
  point : Fin n
  candidates : Fin numParts → Candidate
  named : ∀ target, candidates target = {} ∨ (candidates target).node = point

def setPoints (tree : Tree n numParts dims) (updates : List (PointUpdate n numParts)) :
    Option (Tree n numParts dims) :=
  updates.foldlM (fun tree item => tree.setPoint item.point item.candidates) tree

/-- The candidates that were set last. -/
def lastSet (updates : List (PointUpdate n numParts)) : Fin n → Fin numParts → Candidate :=
  updates.foldl (fun own item => update own item.point item.candidates) fun _ _ => {}

/-- The scan over all points, one after the other; an inactive candidate replaces no other. -/
def scan (weights : Fin n → Fin dims → ℤ) (own : Fin n → Fin numParts → Candidate)
    (points : List (Fin n)) (target : Fin numParts) (bounds : Fin dims → ℤ) : Candidate :=
  bestOf own target (within weights bounds points)

variable {updates : List (PointUpdate n numParts)}

theorem lastSet_concat (item : PointUpdate n numParts) :
    lastSet (updates ++ [item]) = update (lastSet updates) item.point item.candidates := by
  rw [lastSet, foldl_append]
  rfl

theorem lastSet_named : Named (lastSet updates) := by
  induction updates using List.reverseRecOn with
  | nil => exact fun _ _ => Or.inl rfl
  | append_singleton updates item ih =>
    intro point target
    rw [lastSet_concat]
    by_cases heq : point = item.point
    · rw [heq, update_self]
      exact item.named target
    · rw [update_of_ne heq]
      exact ih point target

theorem setPoints_good {weights : Fin n → Fin dims → ℤ} {tree : Tree n numParts dims}
    (hg : Good weights (fun _ _ => {}) tree) (hn : tree.points.Nodup)
    (hp : ∀ item ∈ updates, item.point ∈ tree.points) :
    ∃ tree', setPoints tree updates = some tree' ∧ tree'.points = tree.points ∧
      Good weights (lastSet updates) tree' := by
  induction updates using List.reverseRecOn with
  | nil => exact ⟨tree, rfl, rfl, hg⟩
  | append_singleton updates item ih =>
    obtain ⟨hb, hi⟩ := forall_mem_append.mp hp
    obtain ⟨tree', hr, heq, hg'⟩ := ih hb
    have hin : item.point ∈ tree'.points := heq ▸ hi item (mem_singleton_self item)
    refine ⟨tree'.replace item.point item.candidates, ?_, (points_replace _ _ _).trans heq, ?_⟩
    · rw [setPoints] at hr ⊢
      rw [foldlM_append, hr]
      exact (bind_pure (tree'.setPoint item.point item.candidates)).trans
        (if_pos (contains_iff_mem.mpr hin))
    · rw [lastSet_concat]
      exact hg'.replace (lastSet_concat item ▸ lastSet_named) (heq ▸ hn)

/--
**The tree refines a linear scan.**

After every run of updates of its points a query gives the candidate that a scan over all points
gives.
-/
theorem query_eq_scan [NeZero dims] (weights : Fin n → Fin dims → ℤ) {points : List (Fin n)}
    (hnodup : points.Nodup) (hpoints : ∀ item ∈ updates, item.point ∈ points) :
    ∃ tree : Tree n numParts dims,
      setPoints (Tree.build weights points 0) updates = some tree ∧
      ∀ target bounds, tree.query weights target bounds =
        scan weights (lastSet updates) points target bounds := by
  obtain ⟨hperm, hgood⟩ : (Tree.build weights points 0 : Tree n numParts dims).points.Perm
      points ∧ _ := build_spec weights points 0
  obtain ⟨tree, hrun, heq, htree⟩ := setPoints_good hgood (hperm.nodup_iff.mpr hnodup)
    fun item hitem => hperm.mem_iff.mpr (hpoints item hitem)
  refine ⟨tree, hrun, fun target bounds => ?_⟩
  rw [htree.query lastSet_named, scan]
  exact bestOf_perm lastSet_named ((heq ▸ hperm).filter _)

def setAndCleared : List (PointUpdate 2 1) :=
  [⟨.last 1, fun _ => ⟨3, 1, 0, (3 : ℚ)⟩, fun _ => .inr rfl⟩,
    ⟨.last 1, fun _ => {}, fun _ => .inl rfl⟩,
    ⟨.castSucc (.last 0), fun _ => ⟨2, 0, 0, (2 : ℚ)⟩, fun _ => .inr rfl⟩]

theorem query_eq_scan_two : ∃ tree : Tree 2 1 1,
    setPoints (Tree.build (fun point _ => (point : ℤ)) [0, 1] 0) setAndCleared = some tree ∧
      ∀ target bounds, tree.query (fun point _ => (point : ℤ)) target bounds =
        scan (fun point _ => (point : ℤ)) (lastSet setAndCleared) [0, 1] target bounds :=
  query_eq_scan _ (by decide) (by simp [setAndCleared])

end EmuFlow.MfsPart.RefinerChecker
