import EmuFlow.PinPlanner.Assign
import Mathlib.Order.Interval.Finset.Nat

/-!
# Pins are assigned at least cost

The search keeps potentials that fit the assignment of the rows so far: no row and column together
exceed their cost, an assigned pair reaches it, and only an assigned column has a negative
potential.
-/

namespace EmuFlow.PinPlanner

open List
open Function (update update_of_ne update_self)

section loops

variable {cost : ℕ → ℕ → ℚ} {m : ℕ} {p : ℕ → ℕ} {u v : ℕ → ℚ} {used : ℕ → Bool} {j0 : ℕ}

theorem Scan.lower_congr {scan start : Scan} {j : ℕ} (hm : scan.minv j = start.minv j)
    (hw : scan.way j = start.way j) (cur : ℚ) (j0 : ℕ) :
    scan.lower cur j0 j = start.lower cur j0 j := by
  unfold Scan.lower
  rw [hm, hw]

theorem Scan.lower_le (scan : Scan) (cur : ℚ) (j0 j : ℕ) :
    (scan.lower cur j0 j).1 ≤ cur ∧ ∀ x, scan.minv j = some x → (scan.lower cur j0 j).1 ≤ x := by
  unfold Scan.lower
  cases hm : scan.minv j with
  | none => exact ⟨le_rfl, fun x hx => by cases hx⟩
  | some value =>
    dsimp only
    split
    · next hl =>
      refine ⟨le_rfl, fun x hx => ?_⟩
      cases hx
      exact hl.le
    · next hn =>
      refine ⟨not_lt.mp hn, fun x hx => ?_⟩
      cases hx
      exact le_rfl

theorem Scan.lower_cases (scan : Scan) (cur : ℚ) (j0 j : ℕ) : scan.lower cur j0 j = (cur, j0) ∨
      ∃ x, scan.minv j = some x ∧ scan.lower cur j0 j = (x, scan.way j) := by
  unfold Scan.lower
  cases hm : scan.minv j with
  | none => exact .inl rfl
  | some value =>
    dsimp only
    split
    · exact .inl rfl
    · exact .inr ⟨value, rfl, rfl⟩

/-- A loop whose turn at a column only changes what is read at that column. -/
theorem foldl_at {σ β : Type} (turn : σ → ℕ → σ) (read : σ → ℕ → β) (change : ℕ → β → β)
    (hs : ∀ s j, read (turn s j) j = change j (read s j))
    (ho : ∀ s j i, i ≠ j → read (turn s j) i = read s i) :
    ∀ {cols : List ℕ} (s : σ), cols.Nodup → ∀ i,
      read (cols.foldl turn s) i = if i ∈ cols then change i (read s i) else read s i
  | [], _, _, _ => by simp
  | j :: cols, s, hnd, i => by
    obtain ⟨hj, hnd⟩ := nodup_cons.mp hnd
    rw [foldl_cons, foldl_at _ _ _ hs ho _ hnd]
    by_cases hi : i = j
    · subst hi
      rw [if_neg hj, if_pos mem_cons_self, hs]
    · rw [ho s j i hi]
      simp [hi]

theorem foldl_scanColumn_at {start scan : Scan} {cols : List ℕ} (hnd : cols.Nodup)
    (hs : cols.foldl (scanColumn cost p u v used j0) start = scan) (j : ℕ) :
    scan.minv j = (if j ∈ cols ∧ used j = false then
      some (start.lower (reduced cost u v (p j0) j) j0 j).1 else start.minv j) ∧
    scan.way j = if j ∈ cols ∧ used j = false then
      (start.lower (reduced cost u v (p j0) j) j0 j).2 else start.way j := by
  subst hs
  let lower (j : ℕ) (x : Option ℚ × ℕ) : ℚ × ℕ :=
    Scan.lower ⟨fun _ => x.1, fun _ => x.2, none⟩ (reduced cost u v (p j0) j) j0 j
  have ha := foldl_at (scanColumn cost p u v used j0) (fun scan j => (scan.minv j, scan.way j))
    (fun j x => if used j then x else (some (lower j x).1, (lower j x).2))
    (fun scan j => ?_) (fun scan j i hi => ?_) start hnd j
  · have hl : lower j (start.minv j, start.way j) =
        start.lower (reduced cost u v (p j0) j) j0 j := Scan.lower_congr rfl rfl _ _
    simp only [hl] at ha
    by_cases hj : j ∈ cols <;> cases hu : used j <;>
      simpa [hj, hu, Prod.ext_iff] using ha
  · unfold scanColumn
    split
    · rfl
    · simp only [update_self]
      rfl
  · unfold scanColumn
    split
    · rfl
    · simp [update_of_ne hi]

theorem least_ne_none (best : Option (ℚ × ℕ)) (value : ℚ) (j : ℕ) : least best value j ≠ none := by
  unfold least
  split
  · exact Option.some_ne_none _
  · split <;> exact Option.some_ne_none _

theorem least_cases {best : Option (ℚ × ℕ)} {value delta : ℚ} {j j1 : ℕ}
    (h : least best value j = some (delta, j1)) :
    (delta = value ∧ j1 = j ∧ ∀ x, best = some x → value ≤ x.1) ∨
      best = some (delta, j1) ∧ delta ≤ value := by
  unfold least at h
  split at h
  · cases h
    exact .inl ⟨rfl, rfl, fun x hx => by cases hx⟩
  · next d i =>
    split at h
    · next hl =>
      cases h
      refine .inl ⟨rfl, rfl, fun x hx => ?_⟩
      cases hx
      rcases hl with hlt | ⟨heq, -⟩
      · exact hlt.le
      · exact heq.le
    · next hl =>
      cases h
      exact .inr ⟨rfl, not_lt.mp fun hlt => hl (.inl hlt)⟩

/-- **The loop over the columns** lowers the minima and keeps the least of them. -/
theorem foldl_scanColumn {start : Scan} (hbs : start.best = none) {cols : List ℕ}
    (hnd : cols.Nodup) {scan : Scan}
    (hs : cols.foldl (scanColumn cost p u v used j0) start = scan) :
    (∀ delta j1, scan.best = some (delta, j1) → j1 ∈ cols ∧ used j1 = false ∧
      delta = (start.lower (reduced cost u v (p j0) j1) j0 j1).1 ∧
      ∀ j ∈ cols, used j = false → delta ≤ (start.lower (reduced cost u v (p j0) j) j0 j).1) ∧
    (scan.best = none → ∀ j ∈ cols, used j = true) := by
  induction cols using reverseRecOn generalizing scan with
  | nil =>
    subst hs
    refine ⟨fun delta j1 h => ?_, by simp⟩
    rw [foldl_nil, hbs] at h
    cases h
  | append_singleton cols j ih =>
    rw [nodup_append] at hnd
    have hj : j ∉ cols := fun h => hnd.2.2 j h j (mem_singleton_self j) rfl
    obtain ⟨hl, hn⟩ := ih hnd.1 rfl
    rw [foldl_append, foldl_cons, foldl_nil] at hs
    generalize hb : cols.foldl (scanColumn cost p u v used j0) start = before at *
    obtain ⟨hm, hw⟩ := foldl_scanColumn_at hnd.1 hb j
    rw [if_neg fun h => hj h.1] at hm hw
    unfold scanColumn at hs
    split at hs
    · next hu =>
      subst hs
      refine ⟨fun delta j1 h => ?_, fun h i hi => ?_⟩
      · obtain ⟨h1, h2, h3, h4⟩ := hl delta j1 h
        refine ⟨mem_append_left _ h1, h2, h3, fun i hi hf => ?_⟩
        rcases List.mem_append.mp hi with hi | hi
        · exact h4 i hi hf
        · rw [mem_singleton.mp hi, hu] at hf
          cases hf
      · rcases List.mem_append.mp hi with hi | hi
        · exact hn h i hi
        · rw [mem_singleton.mp hi]
          exact hu
    · next hu =>
      dsimp only at hs
      rw [Scan.lower_congr hm hw] at hs
      subst hs
      refine ⟨fun delta j1 h => ?_, fun h => absurd h (least_ne_none _ _ _)⟩
      rcases least_cases h with ⟨rfl, rfl, hle⟩ | ⟨hbf, hle⟩
      · refine ⟨mem_append_right _ mem_cons_self, Bool.eq_false_iff.mpr hu, rfl,
          fun i hi hif => ?_⟩
        rcases List.mem_append.mp hi with hi | hi
        · cases hbf : before.best with
          | none =>
            rw [hn hbf i hi] at hif
            cases hif
          | some best => exact (hle best hbf).trans ((hl _ _ hbf).2.2.2 i hi hif)
        · rw [mem_singleton.mp hi]
      · obtain ⟨h1, h2, h3, h4⟩ := hl delta j1 hbf
        refine ⟨mem_append_left _ h1, h2, h3, fun i hi hif => ?_⟩
        rcases List.mem_append.mp hi with hi | hi
        · exact h4 i hi hif
        · rw [mem_singleton.mp hi]
          exact hle

theorem foldl_shiftColumn_at {delta : ℚ} {minv : ℕ → Option ℚ} {cols : List ℕ}
    (hnd : cols.Nodup) {state : (ℕ → ℚ) × (ℕ → ℚ) × (ℕ → Option ℚ)}
    (hs : cols.foldl (shiftColumn p used delta) (u, v, minv) = state) (j : ℕ) :
    state.2.1 j = (if j ∈ cols ∧ used j = true then v j - delta else v j) ∧
    state.2.2 j = if j ∈ cols ∧ used j = false then (minv j).map (fun x => x - delta)
      else minv j := by
  subst hs
  have ha := foldl_at (shiftColumn p used delta) (fun state j => (state.2.1 j, state.2.2 j))
    (fun j x => if used j then (x.1 - delta, x.2) else (x.1, x.2.map fun x => x - delta))
    (fun state j => ?_) (fun state j i hi => ?_) (u, v, minv) hnd j
  · by_cases hj : j ∈ cols <;> cases hu : used j <;>
      simpa [hj, hu, Prod.ext_iff] using ha
  · unfold shiftColumn
    split <;> simp
  · unfold shiftColumn
    split <;> simp [update_of_ne hi]

/-- **The loop that applies `delta`**: to the rows of the columns that are marked. -/
theorem foldl_shiftColumn (p : ℕ → ℕ) (used : ℕ → Bool) (delta : ℚ) : ∀ {cols : List ℕ}
    (state : (ℕ → ℚ) × (ℕ → ℚ) × (ℕ → Option ℚ)), cols.Nodup →
    (∀ j ∈ cols, used j = true → ∀ j' ∈ cols, used j' = true → p j = p j' → j = j') →
    (∀ j ∈ cols, used j = true →
      (cols.foldl (shiftColumn p used delta) state).1 (p j) = state.1 (p j) + delta) ∧
    ∀ i, (∀ j ∈ cols, used j = true → p j ≠ i) →
      (cols.foldl (shiftColumn p used delta) state).1 i = state.1 i
  | [], state, _, _ => by simp
  | j :: cols, state, hnd, hin => by
    obtain ⟨hj, hnd⟩ := nodup_cons.mp hnd
    obtain ⟨hr, ho⟩ := foldl_shiftColumn p used delta (shiftColumn p used delta state j) hnd
      fun i hi hiu i' hi' => hin i (mem_cons_of_mem _ hi) hiu i' (mem_cons_of_mem _ hi')
    have hs : ∀ i, (used j = true → p j ≠ i) →
        (shiftColumn p used delta state j).1 i = state.1 i := by
      intro i hi
      unfold shiftColumn
      split
      · next hu => exact update_of_ne (hi hu).symm _ _
      · rfl
    rw [foldl_cons]
    refine ⟨fun i hi hiu => ?_, fun i hi => ?_⟩
    · rcases mem_cons.mp hi with rfl | hi
      · -- no later column has the row of this one
        rw [ho (p i) fun i' hi' hiu' heq =>
          hj (hin i' (mem_cons_of_mem _ hi') hiu' i mem_cons_self hiu heq ▸ hi'),
          shiftColumn, if_pos hiu]
        exact update_self _ _ _
      · rw [hr i hi hiu, hs]
        exact fun hu heq => hj (hin j mem_cons_self hu i (mem_cons_of_mem _ hi) hiu heq ▸ hi)
    · rw [ho i fun i' hi' => hi i' (mem_cons_of_mem _ hi'), hs i (hi j mem_cons_self)]

end loops

/-! ## the search -/

def IsColumn (m j : ℕ) : Prop := 1 ≤ j ∧ j ≤ m

instance (m j : ℕ) : Decidable (IsColumn m j) := inferInstanceAs (Decidable (_ ∧ _))

/-- The potentials fit the rows assigned to the columns. -/
structure Potentials (cost : ℕ → ℕ → ℚ) (n m : ℕ) (p : ℕ → ℕ) (u v : ℕ → ℚ) : Prop where
  feasible : ∀ i, 1 ≤ i → i ≤ n → ∀ j, IsColumn m j → 0 ≤ reduced cost u v i j
  v_nonpos : ∀ j, IsColumn m j → v j ≤ 0
  v_free : ∀ j, IsColumn m j → p j = 0 → v j = 0
  tight : ∀ j, IsColumn m j → p j ≠ 0 → reduced cost u v (p j) j = 0

/-- Every row up to `k` has a column, and no column has another row. -/
structure Assigned (m k : ℕ) (p : ℕ → ℕ) : Prop where
  le : ∀ j, IsColumn m j → p j ≤ k
  inj : ∀ j, IsColumn m j → ∀ j', IsColumn m j' → p j ≠ 0 → p j = p j' → j = j'
  onto : ∀ i, 1 ≤ i → i ≤ k → ∃ j, IsColumn m j ∧ p j = i

/-- The columns from one back to the zeroth. -/
inductive WayPath (way : ℕ → ℕ) : ℕ → List ℕ → Prop where
  | zero : WayPath way 0 []
  | cons {j : ℕ} {l : List ℕ} (hj : j ≠ 0) (h : WayPath way (way j) l) : WayPath way j (j :: l)

structure Searching (cost : ℕ → ℕ → ℚ) (n m : ℕ) (p : ℕ → ℕ) (s : Search) : Prop where
  potentials : Potentials cost n m p s.u s.v
  j0_le : s.j0 ≤ m
  j0_unused : s.used s.j0 = false
  used_le : ∀ j, s.used j = true → j ≤ m ∧ (j = 0 ∨ p j ≠ 0)
  minv_le : ∀ j, IsColumn m j → s.used j = false → ∀ i, s.used i = true →
    ∃ x, s.minv j = some x ∧ x ≤ reduced cost s.u s.v (p i) j
  minv_way : ∀ j, IsColumn m j → s.used j = false → ∀ x, s.minv j = some x →
    s.used (s.way j) = true ∧ x = reduced cost s.u s.v (p (s.way j)) j
  tree : ∀ j, j ≠ 0 → (s.used j = true ∨ j = s.j0) →
    s.used (s.way j) = true ∧ reduced cost s.u s.v (p (s.way j)) j = 0
  path : ∀ j, (s.used j = true ∨ j = s.j0) →
    ∃ l, WayPath s.way j l ∧ l.Nodup ∧ ∀ c ∈ l, c = j ∨ s.used c = true

theorem WayPath.congr {way way' : ℕ → ℕ} {j : ℕ} {l : List ℕ} (h : WayPath way j l)
    (hs : ∀ c ∈ l, way' c = way c) : WayPath way' j l := by
  induction h with
  | zero => exact .zero
  | cons hj _ ih =>
    refine .cons hj ?_
    rw [hs _ mem_cons_self]
    exact ih fun c hc => hs c (mem_cons_of_mem _ hc)

section search

variable {cost : ℕ → ℕ → ℚ} {n m k : ℕ} {p : ℕ → ℕ}

theorem Assigned.exists_free (h : Assigned m k p) (hk : k < m) : ∃ j, IsColumn m j ∧ p j = 0 := by
  by_contra hn
  simp only [not_exists, not_and] at hn
  have hc := Finset.card_le_card_of_injOn (s := Finset.Icc 1 m) (t := Finset.Icc 1 k) p
    (fun j hj => by
      have hj : IsColumn m j := Finset.mem_Icc.mp hj
      exact Finset.mem_coe.mpr (Finset.mem_Icc.mpr ⟨Nat.one_le_iff_ne_zero.mpr (hn j hj),
        h.le j hj⟩))
    (fun j hj j' hj' heq => by
      have hj : IsColumn m j := Finset.mem_Icc.mp hj
      exact h.inj j hj j' (Finset.mem_Icc.mp hj') (hn j hj) heq)
  simp only [Nat.card_Icc, Nat.add_sub_cancel] at hc
  omega

theorem Assigned.inj_zero (h : Assigned m k p) (hz : p 0 = k + 1) {j j' : ℕ} (hj : j ≤ m)
    (hj' : j' ≤ m) (hne : j = 0 ∨ p j ≠ 0) (heq : p j = p j') : j = j' := by
  rcases Nat.eq_zero_or_pos j with rfl | hp <;> rcases Nat.eq_zero_or_pos j' with rfl | hp'
  · rfl
  · have := h.le j' ⟨hp', hj'⟩
    omega
  · have := h.le j ⟨hp, hj⟩
    omega
  · exact h.inj j ⟨hp, hj⟩ j' ⟨hp', hj'⟩ (hne.resolve_left (by omega)) heq

theorem update_true_iff {used : ℕ → Bool} {j0 j : ℕ} :
    update used j0 true j = true ↔ used j = true ∨ j = j0 := by
  by_cases hj : j = j0
  · simp [hj]
  · simp [hj]

/-- What a turn that moves the potentials by `delta` leaves: column by column, and of the minimum of
a column that is not marked. -/
structure Turned (cost : ℕ → ℕ → ℚ) (m : ℕ) (p : ℕ → ℕ) (s s' : Search) (delta : ℚ) : Prop where
  used : s'.used = update s.used s.j0 true
  column : IsColumn m s'.j0
  unused : s'.used s'.j0 = false
  nonneg : 0 ≤ delta
  u_used : ∀ j, s'.used j = true → s'.u (p j) = s.u (p j) + delta
  u_other : ∀ i, (∀ j, s'.used j = true → p j ≠ i) → s'.u i = s.u i
  v_used : ∀ j, s'.used j = true → s'.v j = s.v j - delta
  v_other : ∀ j, s'.used j = false → s'.v j = s.v j
  way_used : ∀ j, s'.used j = true → s'.way j = s.way j
  minimum : ∀ j, IsColumn m j → s'.used j = false → ∃ x, s'.minv j = some (x - delta) ∧
    delta ≤ x ∧ (j = s'.j0 → x = delta) ∧ s'.used (s'.way j) = true ∧
      x = reduced cost s.u s.v (p (s'.way j)) j ∧
        ∀ i, s'.used i = true → x ≤ reduced cost s.u s.v (p i) j

section turn

variable {s s' : Search} {delta : ℚ} {i j : ℕ}

theorem Searching.marked (h : Searching cost n m p s) (hj0 : s.j0 = 0 ∨ p s.j0 ≠ 0)
    (hj : update s.used s.j0 true j = true) : j ≤ m ∧ (j = 0 ∨ p j ≠ 0) := by
  rcases update_true_iff.mp hj with hj | rfl
  · exact h.used_le j hj
  · exact ⟨h.j0_le, hj0⟩

theorem Assigned.row_le (ha : Assigned m k p) (hz : p 0 = k + 1) (hk : k < n)
    (hj : j ≤ m ∧ (j = 0 ∨ p j ≠ 0)) : 1 ≤ p j ∧ p j ≤ n := by
  obtain ⟨hle, hc⟩ := hj
  rcases Nat.eq_zero_or_pos j with rfl | hp
  · omega
  · have := ha.le j ⟨hp, hle⟩
    have := hc.resolve_left (by omega)
    omega

/-- A lowered minimum is the least reduced cost of a marked row, and is reached. -/
theorem Searching.lower_spec (h : Searching cost n m p s) (hj : IsColumn m j)
    (hju : update s.used s.j0 true j = false) {lower : ℚ × ℕ}
    (hlr : Scan.lower { minv := s.minv, way := s.way, best := none }
      (reduced cost s.u s.v (p s.j0) j) s.j0 j = lower) :
    update s.used s.j0 true lower.2 = true ∧
      lower.1 = reduced cost s.u s.v (p lower.2) j ∧
        ∀ i, update s.used s.j0 true i = true → lower.1 ≤ reduced cost s.u s.v (p i) j := by
  have hu : s.used j = false := by
    by_contra hne
    rw [update_true_iff.mpr (.inl (Bool.eq_true_of_not_eq_false hne))] at hju
    cases hju
  have hle := Scan.lower_le { minv := s.minv, way := s.way, best := none }
    (reduced cost s.u s.v (p s.j0) j) s.j0 j
  rw [hlr] at hle
  have hl : ∀ i, update s.used s.j0 true i = true →
      lower.1 ≤ reduced cost s.u s.v (p i) j := by
    intro i hi
    rcases update_true_iff.mp hi with hi | rfl
    · obtain ⟨x, hx, hxl⟩ := h.minv_le j hj hu i hi
      exact (hle.2 x hx).trans hxl
    · exact hle.1
  rcases Scan.lower_cases { minv := s.minv, way := s.way, best := none }
    (reduced cost s.u s.v (p s.j0) j) s.j0 j with heq | ⟨x, hx, heq⟩
  · rw [← hlr, heq] at hl ⊢
    exact ⟨update_true_iff.mpr (.inr rfl), rfl, hl⟩
  · rw [← hlr, heq] at hl ⊢
    obtain ⟨hw, hxq⟩ := h.minv_way j hj hu x hx
    exact ⟨update_true_iff.mpr (.inl hw), hxq, hl⟩

theorem exists_turned (has : Assigned m k p) (hzr : p 0 = k + 1) (hkn : k < n) (hkm : k < m)
    (h : Searching cost n m p s) (hj0 : s.j0 = 0 ∨ p s.j0 ≠ 0) :
    ∃ s' delta, searchTurn cost m p s = some s' ∧ Turned cost m p s s' delta := by
  obtain ⟨used, hud⟩ : ∃ used, used = update s.used s.j0 true := ⟨_, rfl⟩
  have hmr : ∀ j, used j = true → j ≤ m ∧ (j = 0 ∨ p j ≠ 0) :=
    fun j hj => h.marked hj0 (hud ▸ hj)
  -- the loop over the columns
  obtain ⟨scan, hsc⟩ : ∃ scan, (range' 1 m).foldl (scanColumn cost p s.u s.v used s.j0)
    { minv := s.minv, way := s.way, best := none } = scan := ⟨_, rfl⟩
  obtain ⟨hls, hnn⟩ := foldl_scanColumn rfl nodup_range' hsc
  have hat := foldl_scanColumn_at nodup_range' hsc
  have hcl : ∀ j, j ∈ range' 1 m ↔ IsColumn m j := by
    intro j
    rw [mem_range'_1]
    unfold IsColumn
    omega
  simp only [hcl] at hat hls hnn
  have hly := fun j hj hju => h.lower_spec (j := j) hj (hud ▸ hju) rfl
  simp only [← hud] at hly
  obtain ⟨free, hfre, hfw⟩ := has.exists_free hkm
  have hfr : used free = false := by
    by_contra hne
    have := (hmr free (Bool.eq_true_of_not_eq_false hne)).2
    have := hfre.1
    omega
  obtain ⟨⟨delta, j1⟩, hbs⟩ : ∃ best, scan.best = some best := by
    refine Option.ne_none_iff_exists'.mp fun hnl => ?_
    rw [hnn hnl free hfre] at hfr
    cases hfr
  obtain ⟨hj1, hj1u, hdl, hdt⟩ := hls delta j1 hbs
  -- the loop that applies `delta`
  obtain ⟨shifted, hsh⟩ : ∃ shifted, (List.range (m + 1)).foldl (shiftColumn p used delta)
    (s.u, s.v, scan.minv) = shifted := ⟨_, rfl⟩
  have hrn : ∀ j, j ∈ List.range (m + 1) ↔ j ≤ m := by
    intro j
    rw [mem_range]
    omega
  obtain ⟨hU, hut⟩ := foldl_shiftColumn p used delta (s.u, s.v, scan.minv)
    (nodup_range (n := m + 1)) fun j _ hju j' hj' _ heq =>
      has.inj_zero hzr (hmr j hju).1 ((hrn j').mp hj') (hmr j hju).2 heq
  have hVM := foldl_shiftColumn_at nodup_range hsh
  simp only [hsh, hrn] at hU hut hVM
  have hno : ∀ {j : ℕ} {P : Prop}, used j = false → ¬ (P ∧ used j = true) := fun hj h => by
    rw [h.2] at hj
    cases hj
  refine ⟨{ u := shifted.1, v := shifted.2.1, minv := shifted.2.2, way := scan.way, used := used
            j0 := j1 }, delta, ?_, hud, hj1, hj1u, ?_, fun j hj => hU j (hmr j hj).1 hj,
      fun i hi => hut i fun j _ hj => hi j hj, fun j hj => ?_, fun j hj => ?_, fun j hj => ?_,
      fun j hj hju => ?_⟩
  · unfold searchTurn
    rw [← hud]
    dsimp only
    rw [hsc, hbs]
    dsimp only
    rw [hsh]
  · obtain ⟨hwy, heq, -⟩ := hly j1 hj1 hj1u
    rw [hdl, heq]
    obtain ⟨hle, hle'⟩ := has.row_le hzr hkn (hmr _ hwy)
    exact h.potentials.feasible _ hle hle' j1 hj1
  · exact (hVM j).1.trans (if_pos ⟨(hmr j hj).1, hj⟩)
  · exact (hVM j).1.trans (if_neg (hno hj))
  · refine (hat j).2.trans (if_neg fun h => ?_)
    rw [show used j = true from hj] at h
    cases h.2
  · obtain ⟨hwy, heq, hle⟩ := hly j hj hju
    have hwj := (hat j).2.trans (if_pos ⟨hj, hju⟩)
    refine ⟨_, ?_, hdt j hj hju, fun heq => heq ▸ hdl.symm, ?_, ?_, hle⟩
    · show shifted.2.2 j = _
      rw [(hVM j).2, if_pos ⟨hj.2, hju⟩, (hat j).1, if_pos ⟨hj, hju⟩]
      rfl
    · show used (scan.way j) = true
      rw [hwj]
      exact hwy
    · show _ = reduced cost s.u s.v (p (scan.way j)) j
      rw [hwj]
      exact heq

section reduced

variable (ht : Turned cost m p s s' delta)
include ht

theorem Turned.reduced_marked (hi : s'.used i = true) (hj : s'.used j = true) :
    reduced cost s'.u s'.v (p i) j = reduced cost s.u s.v (p i) j := by
  unfold reduced
  rw [ht.u_used i hi, ht.v_used j hj]
  linarith

theorem Turned.reduced_row (hi : s'.used i = true) (hj : s'.used j = false) :
    reduced cost s'.u s'.v (p i) j = reduced cost s.u s.v (p i) j - delta := by
  unfold reduced
  rw [ht.u_used i hi, ht.v_other j hj]
  linarith

theorem Turned.reduced_column (hi : ∀ j, s'.used j = true → p j ≠ i) (hj : s'.used j = true) :
    reduced cost s'.u s'.v i j = reduced cost s.u s.v i j + delta := by
  unfold reduced
  rw [ht.u_other i hi, ht.v_used j hj]
  linarith

theorem Turned.reduced_other (hi : ∀ j, s'.used j = true → p j ≠ i) (hj : s'.used j = false) :
    reduced cost s'.u s'.v i j = reduced cost s.u s.v i j := by
  unfold reduced
  rw [ht.u_other i hi, ht.v_other j hj]

end reduced

/-- Only a marked row and an unmarked column come closer, by at most the least minimum. -/
theorem Turned.potentials (ht : Turned cost m p s s' delta) (ha : Assigned m k p)
    (hz : p 0 = k + 1) (hm : ∀ j, s'.used j = true → j ≤ m ∧ (j = 0 ∨ p j ≠ 0))
    (h : Potentials cost n m p s.u s.v) : Potentials cost n m p s'.u s'.v where
  feasible i hi hin j hj := by
    have ho := h.feasible i hi hin j hj
    have hd := ht.nonneg
    by_cases hir : ∃ i', s'.used i' = true ∧ p i' = i
    · obtain ⟨i', hi', rfl⟩ := hir
      cases hju : s'.used j with
      | true => rwa [ht.reduced_marked hi' hju]
      | false =>
        obtain ⟨x, -, hle, -, -, -, hx⟩ := ht.minimum j hj hju
        have := hx i' hi'
        rw [ht.reduced_row hi' hju]
        linarith
    · have hir : ∀ i', s'.used i' = true → p i' ≠ i := fun i' hi' heq => hir ⟨i', hi', heq⟩
      cases hju : s'.used j with
      | true =>
        rw [ht.reduced_column hir hju]
        linarith
      | false => rwa [ht.reduced_other hir hju]
  v_nonpos j hj := by
    have ho := h.v_nonpos j hj
    have hd := ht.nonneg
    cases hju : s'.used j with
    | true =>
      rw [ht.v_used j hju]
      linarith
    | false => rwa [ht.v_other j hju]
  v_free j hj hp := by
    rw [ht.v_other j ?_]
    · exact h.v_free j hj hp
    · by_contra hne
      have := (hm j (Bool.eq_true_of_not_eq_false hne)).2
      have := hj.1
      omega
  tight j hj hp := by
    have ho := h.tight j hj hp
    cases hju : s'.used j with
    | true => rwa [ht.reduced_marked hju hju]
    | false =>
      rw [ht.reduced_other (fun i hi heq => ?_) hju]
      · exact ho
      · rw [ha.inj_zero hz (hm i hi).1 hj.2 (hm i hi).2 heq, hju] at hi
        cases hi

theorem Turned.searching (ht : Turned cost m p s s' delta) (has : Assigned m k p)
    (hzr : p 0 = k + 1) (hmr : ∀ j, s'.used j = true → j ≤ m ∧ (j = 0 ∨ p j ≠ 0))
    (h : Searching cost n m p s) : Searching cost n m p s' := by
  have hus : ∀ j, s'.used j = true ↔ s.used j = true ∨ j = s.j0 := by
    rw [ht.used]
    exact fun j => update_true_iff
  have hpt : ∀ j, s'.used j = true →
      ∃ l, WayPath s'.way j l ∧ l.Nodup ∧ ∀ c ∈ l, s'.used c = true := by
    intro j hj
    obtain ⟨l, hl, hnd, hmm⟩ := h.path j ((hus j).mp hj)
    have hal : ∀ c ∈ l, s'.used c = true := by
      intro c hc
      rcases hmm c hc with rfl | hcu
      · exact hj
      · exact (hus c).mpr (.inl hcu)
    exact ⟨l, hl.congr fun c hc => ht.way_used c (hal c hc), hnd, hal⟩
  refine ⟨ht.potentials has hzr hmr h.potentials, ht.column.2, ht.unused, hmr,
    fun j hj hju i hi => ?_, fun j hj hju x hx => ?_, fun j hj0 hj => ?_, fun j hj => ?_⟩
  · obtain ⟨x, hx, -, -, -, -, hle⟩ := ht.minimum j hj hju
    refine ⟨_, hx, ?_⟩
    rw [ht.reduced_row hi hju]
    have := hle i hi
    linarith
  · obtain ⟨y, hy, -, -, hlw, hlq, -⟩ := ht.minimum j hj hju
    rw [hy] at hx
    cases hx
    rw [ht.reduced_row hlw hju, hlq]
    exact ⟨hlw, rfl⟩
  · rcases hj with hju | rfl
    · obtain ⟨hwu, htr⟩ := h.tree j hj0 ((hus j).mp hju)
      have hwu' := (hus (s.way j)).mpr (.inl hwu)
      rw [ht.way_used j hju, ht.reduced_marked hwu' hju]
      exact ⟨hwu', htr⟩
    · obtain ⟨x, -, -, hdl, hlw, hlq, -⟩ := ht.minimum s'.j0 ht.column ht.unused
      rw [ht.reduced_row hlw ht.unused, ← hlq, hdl rfl]
      exact ⟨hlw, sub_self _⟩
  · rcases hj with hju | rfl
    · obtain ⟨l, hl, hnd, hal⟩ := hpt j hju
      exact ⟨l, hl, hnd, fun c hc => .inr (hal c hc)⟩
    · obtain ⟨x, -, -, -, hlw, -, -⟩ := ht.minimum s'.j0 ht.column ht.unused
      obtain ⟨l, hl, hnd, hal⟩ := hpt _ hlw
      have hne : s'.j0 ≠ 0 := by
        have := ht.column.1
        omega
      refine ⟨s'.j0 :: l, .cons hne hl, ?_, fun c hc => ?_⟩
      · refine nodup_cons.mpr ⟨fun hmm => ?_, hnd⟩
        have hu := ht.unused
        rw [hal _ hmm] at hu
        cases hu
      · rcases mem_cons.mp hc with rfl | hc
        · exact .inl rfl
        · exact .inr (hal c hc)

theorem searchTurn_spec (ha : Assigned m k p) (hz : p 0 = k + 1) (hk : k < n)
    (hkm : k < m) (h : Searching cost n m p s) (hj0 : s.j0 = 0 ∨ p s.j0 ≠ 0) :
    ∃ s', searchTurn cost m p s = some s' ∧ Searching cost n m p s' ∧
      s'.used = update s.used s.j0 true ∧ IsColumn m s'.j0 := by
  obtain ⟨s', delta, hs, ht⟩ := exists_turned ha hz hk hkm h hj0
  have hm : ∀ j, s'.used j = true → j ≤ m ∧ (j = 0 ∨ p j ≠ 0) := by
    rw [ht.used]
    exact fun j => h.marked hj0
  exact ⟨s', hs, ht.searching ha hz hm h, ht.used, ht.column⟩

end turn

/-- The search from a row ends at a free column. -/
structure Found (cost : ℕ → ℕ → ℚ) (n m : ℕ) (p : ℕ → ℕ) (s : Search) : Prop where
  searching : Searching cost n m p s
  column : IsColumn m s.j0
  free : p s.j0 = 0

/-- **The search comes to a free column**: every turn marks one more column. -/
theorem searchLoop_spec (ha : Assigned m k p) (hz : p 0 = k + 1) (hk : k < n)
    (hkm : k < m) : ∀ {fuel : ℕ} {s : Search}, Searching cost n m p s → (s.j0 = 0 ∨ p s.j0 ≠ 0) →
      ((Finset.range (m + 1)).filter fun j => s.used j = false).card ≤ fuel →
      ∃ s', searchLoop cost m p fuel s = some s' ∧ Found cost n m p s'
  | 0, s, h, _, hfu => by
    have hm : s.j0 ∈ (Finset.range (m + 1)).filter fun j => s.used j = false :=
      Finset.mem_filter.mpr ⟨Finset.mem_range.mpr (Nat.lt_succ_of_le h.j0_le), h.j0_unused⟩
    have hp := Finset.card_pos.mpr ⟨s.j0, hm⟩
    omega
  | fuel + 1, s, h, hj0, hfu => by
    obtain ⟨s', htr, hs, hu, hc⟩ := searchTurn_spec ha hz hk hkm h hj0
    rw [searchLoop, htr]
    dsimp only
    by_cases hfr : p s'.j0 = 0
    · rw [if_neg (not_not.mpr hfr)]
      exact ⟨s', rfl, hs, hc, hfr⟩
    · rw [if_pos hfr]
      refine searchLoop_spec ha hz hk hkm hs (.inr hfr) ?_
      have hl : ((Finset.range (m + 1)).filter fun j => s'.used j = false).card <
          ((Finset.range (m + 1)).filter fun j => s.used j = false).card := by
        refine Finset.card_lt_card (Finset.ssubset_iff_of_subset (fun j hj => ?_) |>.mpr
          ⟨s.j0, ?_, ?_⟩)
        · obtain ⟨hr, hf⟩ := Finset.mem_filter.mp hj
          refine Finset.mem_filter.mpr ⟨hr, ?_⟩
          rw [hu] at hf
          by_cases heq : j = s.j0
          · rw [heq]
            exact h.j0_unused
          · rwa [update_of_ne heq] at hf
        · exact Finset.mem_filter.mpr
            ⟨Finset.mem_range.mpr (Nat.lt_succ_of_le h.j0_le), h.j0_unused⟩
        · intro hm
          have hf := (Finset.mem_filter.mp hm).2
          rw [hu, update_self] at hf
          cases hf
      omega

/-! ## the way back -/

section path

variable {way : ℕ → ℕ} {j : ℕ} {l : List ℕ}

section

variable (h : WayPath way j l)
include h

theorem WayPath.head : j = 0 ∧ l = [] ∨ j ≠ 0 ∧ j ∈ l := by
  cases h with
  | zero => exact .inl ⟨rfl, rfl⟩
  | cons hj _ => exact .inr ⟨hj, mem_cons_self⟩

theorem WayPath.way_mem : ∀ c ∈ l, way c = 0 ∨ way c ∈ l := by
  induction h with
  | zero => simp
  | @cons j l hj hr ih =>
    intro c hc
    rcases mem_cons.mp hc with rfl | hc
    · exact hr.head.imp And.left fun h => mem_cons_of_mem _ h.2
    · exact (ih c hc).imp_right (mem_cons_of_mem _)

theorem WayPath.ne_zero : ∀ c ∈ l, c ≠ 0 := by
  induction h with
  | zero => simp
  | cons hj _ ih =>
    intro c hc
    rcases mem_cons.mp hc with rfl | hc
    · exact hj
    · exact ih c hc

theorem WayPath.way_ne_head (hn : l.Nodup) : ∀ c ∈ l, way c ≠ j := by
  cases h with
  | zero => simp
  | @cons _ l hj hr =>
    rw [nodup_cons] at hn
    intro c hc heq
    have hw : way c = 0 ∨ way c ∈ l := by
      rcases mem_cons.mp hc with rfl | hc
      · exact hr.head.imp And.left And.right
      · exact hr.way_mem c hc
    rw [heq] at hw
    exact hw.elim hj hn.1

theorem WayPath.way_inj (hn : l.Nodup) : ∀ c ∈ l, ∀ c' ∈ l, way c = way c' → c = c' := by
  induction h with
  | zero => simp
  | @cons j l hj hr ih =>
    rw [nodup_cons] at hn
    -- the second column of the path is reached from the first only
    have hf : ∀ c ∈ l, way c ≠ way j := hr.way_ne_head hn.2
    intro c hc c' hc' heq
    rcases mem_cons.mp hc with hcj | hcl <;> rcases mem_cons.mp hc' with hcj' | hcl'
    · rw [hcj, hcj']
    · exact absurd (heq.symm.trans (congrArg way hcj)) (hf c' hcl')
    · exact absurd (heq.trans (congrArg way hcj')) (hf c hcl)
    · exact ih hn.2 c hcl c' hcl' heq

theorem WayPath.exists_way {c : ℕ} (hc : c = 0 ∧ j ≠ 0 ∨ c ∈ l ∧ c ≠ j) : ∃ c' ∈ l, way c' = c := by
  induction h with
  | zero => simp at hc
  | @cons j l hj hr ih =>
    by_cases hw : way j = c
    · exact ⟨j, mem_cons_self, hw⟩
    · have hn : c = 0 ∧ way j ≠ 0 ∨ c ∈ l ∧ c ≠ way j := by
        rcases hc with ⟨rfl, -⟩ | ⟨hm, hne⟩
        · exact .inl ⟨rfl, hw⟩
        · exact .inr ⟨(mem_cons.mp hm).resolve_left hne, Ne.symm hw⟩
      obtain ⟨c', hc', heq⟩ := ih hn
      exact ⟨c', mem_cons_of_mem _ hc', heq⟩

theorem augment_spec (hn : l.Nodup) (hj : j ≠ 0) {fuel : ℕ}
    (hf : l.length ≤ fuel) (p : ℕ → ℕ) : ∃ p', augment way fuel j p = some p' ∧
      ∀ c, p' c = if c ∈ l then p (way c) else p c := by
  induction h generalizing fuel p with
  | zero => exact absurd rfl hj
  | @cons j l hj hr ih =>
    rw [nodup_cons] at hn
    cases fuel with
    | zero => simp at hf
    | succ fuel =>
      rw [length_cons] at hf
      unfold augment
      dsimp only
      by_cases hw : way j = 0
      · rw [if_neg (not_not.mpr hw)]
        have hnl : l = [] := by
          rcases hr.head with ⟨-, hnl⟩ | ⟨hne, -⟩
          · exact hnl
          · exact absurd hw hne
        refine ⟨_, rfl, fun c => ?_⟩
        rw [hnl]
        by_cases hc : c = j
        · subst hc
          simp
        · simp [hc]
      · rw [if_pos hw]
        have hf : l.length ≤ fuel := by omega
        obtain ⟨p', hp', hs⟩ := ih hn.2 hw hf (update p j (p (way j)))
        refine ⟨p', hp', fun c => ?_⟩
        rw [hs]
        by_cases hc : c ∈ l
        · have hne : way c ≠ j := by
            rintro rfl
            rcases hr.way_mem c hc with hz | hm
            · exact hj hz
            · exact hn.1 hm
          rw [if_pos hc, if_pos (mem_cons_of_mem _ hc), update_of_ne hne]
        · by_cases hcj : c = j
          · subst hcj
            simp [hc]
          · simp [hc, hcj]

end

end path

theorem Found.augmented (has : Assigned m k p) (hzr : p 0 = k + 1) {s : Search}
    (h : Found cost n m p s) : ∃ p', augment s.way (m + 1) s.j0 p = some p' ∧
      Assigned m (k + 1) p' ∧ Potentials cost n m p' s.u s.v := by
  obtain ⟨l, hl, hnd, hmm⟩ := h.searching.path s.j0 (.inr rfl)
  have hj0 : s.j0 ≠ 0 := by
    have := h.column.1
    omega
  have hcl : ∀ c ∈ l, IsColumn m c := by
    intro c hc
    rcases hmm c hc with rfl | hus
    · exact h.column
    · exact ⟨Nat.one_le_iff_ne_zero.mpr (hl.ne_zero c hc), (h.searching.used_le c hus).1⟩
  have hwa : ∀ c ∈ l, s.way c ≤ m ∧ (s.way c = 0 ∨ p (s.way c) ≠ 0) := fun c hc =>
    h.searching.used_le _ (h.searching.tree c (hl.ne_zero c hc) ((hmm c hc).symm)).1
  have hrw : ∀ c ∈ l, p (s.way c) ≠ 0 := by
    intro c hc
    rcases (hwa c hc).2 with hwa | hne
    · rw [hwa]
      omega
    · exact hne
  have hln : l.length ≤ m + 1 := by
    have hcr := Finset.card_le_card (s := l.toFinset) (t := Finset.Icc 1 m) fun c hc =>
      Finset.mem_Icc.mpr (hcl c (mem_toFinset.mp hc))
    rw [toFinset_card_of_nodup hnd, Nat.card_Icc] at hcr
    omega
  obtain ⟨p', hp', hsp⟩ := augment_spec hl hnd hj0 hln p
  have hon : ∀ c ∈ l, p' c = p (s.way c) := fun c hc => by rw [hsp, if_pos hc]
  have hof : ∀ c, c ∉ l → p' c = p c := fun c hc => by rw [hsp, if_neg hc]
  -- a row of the path is that of no column off it
  have hap : ∀ c ∈ l, ∀ c', IsColumn m c' → c' ∉ l → p (s.way c) ≠ p c' := by
    intro c hc c' hc' hnt heq
    have hsm := has.inj_zero hzr (hwa c hc).1 hc'.2 (hwa c hc).2 heq
    rcases hl.way_mem c hc with hwy | hwm
    · have := hc'.1
      omega
    · exact hnt (hsm ▸ hwm)
  refine ⟨p', hp', ⟨fun j hj => ?_, fun j hj j' hj' hne heq => ?_, fun i hi hik => ?_⟩,
    ⟨h.searching.potentials.feasible, h.searching.potentials.v_nonpos, fun j hj hfr => ?_,
      fun j hj hne => ?_⟩⟩
  · by_cases hjl : j ∈ l
    · rw [hon j hjl]
      rcases Nat.eq_zero_or_pos (s.way j) with hwy | hps
      · rw [hwy, hzr]
      · exact (has.le _ ⟨hps, (hwa j hjl).1⟩).trans (Nat.le_succ k)
    · rw [hof j hjl]
      exact (has.le j hj).trans (Nat.le_succ k)
  · by_cases hjl : j ∈ l <;> by_cases hjl' : j' ∈ l
    · rw [hon j hjl, hon j' hjl'] at heq
      exact hl.way_inj hnd j hjl j' hjl'
        (has.inj_zero hzr (hwa j hjl).1 (hwa j' hjl').1 (hwa j hjl).2 heq)
    · rw [hon j hjl, hof j' hjl'] at heq
      exact absurd heq (hap j hjl j' hj' hjl')
    · rw [hof j hjl, hon j' hjl'] at heq
      exact absurd heq.symm (hap j' hjl' j hj hjl)
    · rw [hof j hjl] at hne
      rw [hof j hjl, hof j' hjl'] at heq
      exact has.inj j hj j' hj' hne heq
  · rcases Nat.lt_or_eq_of_le hik with hlt | rfl
    · obtain ⟨j, hj, rfl⟩ := has.onto i hi (by omega)
      by_cases hjl : j ∈ l
      · have hne : j ≠ s.j0 := by
          rintro rfl
          rw [h.free] at hi
          omega
        obtain ⟨c, hc, hwq⟩ := hl.exists_way (.inr ⟨hjl, hne⟩)
        exact ⟨c, hcl c hc, by rw [hon c hc, hwq]⟩
      · exact ⟨j, hj, hof j hjl⟩
    · obtain ⟨c, hc, hwq⟩ := hl.exists_way (.inl ⟨rfl, hj0⟩)
      exact ⟨c, hcl c hc, by rw [hon c hc, hwq, hzr]⟩
  · by_cases hjl : j ∈ l
    · rw [hon j hjl] at hfr
      exact absurd hfr (hrw j hjl)
    · rw [hof j hjl] at hfr
      exact h.searching.potentials.v_free j hj hfr
  · by_cases hjl : j ∈ l
    · rw [hon j hjl]
      exact (h.searching.tree j (hl.ne_zero j hjl) (hmm j hjl).symm).2
    · rw [hof j hjl] at hne ⊢
      exact h.searching.potentials.tight j hj hne

theorem assignRow_spec (hkn : k < n) (hkm : k < m) {rows : Rows} (has : Assigned m k rows.p)
    (hpt : Potentials cost n m rows.p rows.u rows.v) :
    ∃ rows', assignRow cost m rows (k + 1) = some rows' ∧ Assigned m (k + 1) rows'.p ∧
      Potentials cost n m rows'.p rows'.u rows'.v := by
  obtain ⟨p, hp⟩ : ∃ p, p = update rows.p 0 (k + 1) := ⟨_, rfl⟩
  have hsm : ∀ j, IsColumn m j → p j = rows.p j := by
    intro j hj
    have hne : j ≠ 0 := by
      have := hj.1
      omega
    rw [hp, update_of_ne hne]
  have hzr : p 0 = k + 1 := by
    rw [hp, update_self]
  have has' : Assigned m k p := by
    refine ⟨fun j hj => ?_, fun j hj j' hj' hne heq => ?_, fun i hi hik => ?_⟩
    · rw [hsm j hj]
      exact has.le j hj
    · rw [hsm j hj] at hne
      rw [hsm j hj, hsm j' hj'] at heq
      exact has.inj j hj j' hj' hne heq
    · obtain ⟨j, hj, heq⟩ := has.onto i hi hik
      exact ⟨j, hj, (hsm j hj).trans heq⟩
  have hpt' : Potentials cost n m p rows.u rows.v := by
    refine ⟨hpt.feasible, hpt.v_nonpos, fun j hj hfr => ?_, fun j hj hne => ?_⟩
    · rw [hsm j hj] at hfr
      exact hpt.v_free j hj hfr
    · rw [hsm j hj] at hne ⊢
      exact hpt.tight j hj hne
  let start : Search :=
    { u := rows.u, v := rows.v, minv := fun _ => none, way := rows.way, used := fun _ => false
      j0 := 0 }
  have hst : Searching cost n m p start := by
    refine ⟨hpt', Nat.zero_le m, rfl, fun _ h => ?_, fun _ _ _ _ h => ?_,
      fun _ _ _ _ h => ?_, fun j hj h => ?_, fun j h => ?_⟩
    · cases h
    · cases h
    · cases h
    · rcases h with h | h
      · cases h
      · exact absurd h hj
    · rcases h with h | rfl
      · cases h
      · exact ⟨[], .zero, nodup_nil, by simp⟩
  have hfl : ((Finset.range (m + 1)).filter fun j => start.used j = false).card ≤ m + 1 :=
    (Finset.card_filter_le _ _).trans (Finset.card_range _).le
  obtain ⟨s, hs, hfn⟩ := searchLoop_spec has' hzr hkn hkm hst (.inl rfl) hfl
  obtain ⟨p', hp', has'', hpt''⟩ := hfn.augmented has' hzr
  refine ⟨{ u := s.u, v := s.v, p := p', way := s.way }, ?_, has'', hpt''⟩
  unfold assignRow
  rw [← hp]
  show (searchLoop cost m p (m + 1) _).bind _ = _
  rw [hs]
  show (augment s.way (m + 1) s.j0 p).bind _ = _
  rw [hp']
  rfl

end search

theorem assignRows_spec {cost : ℕ → ℕ → ℚ} {n m : ℕ}
    (hc : ∀ i, 1 ≤ i → i ≤ n → ∀ j, IsColumn m j → 0 ≤ cost i j) (hnm : n ≤ m) :
    ∃ rows, assignRows cost m n = some rows ∧ Assigned m n rows.p ∧
      Potentials cost n m rows.p rows.u rows.v := by
  have hr : ∀ k ≤ n, ∃ rows, (range' 1 k).foldlM (assignRow cost m) ({} : Rows) =
      some rows ∧ Assigned m k rows.p ∧ Potentials cost n m rows.p rows.u rows.v := by
    intro k
    induction k with
    | zero =>
      intro _
      refine ⟨{}, rfl, ⟨fun _ _ => le_rfl, fun _ _ _ _ hne => absurd rfl hne, fun i hi hi0 => ?_⟩,
        ⟨fun i hi hin j hj => ?_, fun _ _ => le_rfl, fun _ _ _ => rfl,
          fun _ _ hne => absurd rfl hne⟩⟩
      · omega
      · have hn := hc i hi hin j hj
        simpa [reduced] using hn
    | succ k ih =>
      intro hk
      obtain ⟨rows, hrw, ha, hp⟩ := ih (by omega)
      obtain ⟨rows', hrw', ha', hp'⟩ :=
        assignRow_spec (by omega) (by omega) ha hp
      refine ⟨rows', ?_, ha', hp'⟩
      rw [range'_1_concat, foldlM_append, hrw]
      show (assignRow cost m rows (1 + k)).bind _ = _
      rw [Nat.add_comm 1 k, hrw']
      rfl
  exact hr n le_rfl

theorem rowColumns_eq {m k : ℕ} {p : ℕ → ℕ} (h : Assigned m k p) {j : ℕ} (hj : IsColumn m j)
    (hne : p j ≠ 0) : rowColumns m p (p j - 1) = (j : ℤ) - 1 := by
  have hf : ∀ cols : List ℕ, (∀ c ∈ cols, IsColumn m c) → ∀ r : ℕ → ℤ,
      cols.foldl (fun r pin =>
        if 0 < p pin then update r (p pin - 1) ((pin : ℤ) - 1) else r)
        r (p j - 1) = if j ∈ cols then (j : ℤ) - 1 else r (p j - 1) := by
    intro cols
    induction cols with
    | nil => simp
    | cons c cols ih =>
      intro hcs r
      rw [foldl_cons, ih fun c' hc' => hcs c' (mem_cons_of_mem _ hc')]
      by_cases hm : j ∈ cols
      · simp [hm]
      · by_cases hc : c = j
        · subst hc
          simp [hm, Nat.pos_of_ne_zero hne]
        · -- another column has another row
          have hr : p c ≠ p j := fun heq =>
            hc (h.inj c (hcs c mem_cons_self) j hj (heq ▸ hne) heq)
          by_cases hp : 0 < p c
          · have hi : p j - 1 ≠ p c - 1 := by omega
            simp [hm, Ne.symm hc, hp, update_of_ne hi]
          · simp [hm, Ne.symm hc, hp]
  have hcl : ∀ c, c ∈ range' 1 m ↔ IsColumn m c := by
    intro c
    rw [mem_range'_1]
    unfold IsColumn
    omega
  unfold rowColumns
  rw [hf _ (fun c hc => (hcl c).mp hc), if_pos ((hcl j).mpr hj)]

theorem pinCost_nonneg (input : Input) (lanes : ℕ) (group : Group input.size) (pin : ℕ) :
    0 ≤ input.pinCost lanes group pin := by
  refine sum_nonneg fun x hx => ?_
  obtain ⟨i, -, rfl⟩ := mem_map.mp hx
  positivity

theorem assignPins_optimal (input : Input) (groups : List (Group input.size)) {lanes : ℕ}
    (h : groups.length ≤ lanes) : ∃ pins : Fin groups.length → Fin lanes,
      input.assignPins groups lanes = some (ofFn fun i => (pins i : ℤ)) ∧ Function.Injective pins ∧
      ∀ other : Fin groups.length → Fin lanes, Function.Injective other →
        ∑ i, input.pinCost lanes (groups.get i) (pins i + 1) ≤
          ∑ i, input.pinCost lanes (groups.get i) (other i + 1) := by
  obtain ⟨cost, hcs⟩ : ∃ cost : ℕ → ℕ → ℚ, cost = fun i pin => ((groups[i - 1]?).map
    fun group => input.pinCost lanes group pin).getD 0 := ⟨_, rfl⟩
  have hgt : ∀ (i : Fin groups.length) (pin : ℕ),
      cost (i + 1) pin = input.pinCost lanes (groups.get i) pin := by
    intro i pin
    rw [hcs]
    simp
  have hnn : ∀ i, 1 ≤ i → i ≤ groups.length → ∀ j, IsColumn lanes j → 0 ≤ cost i j := by
    intro i hi hin j _
    have heq := hgt ⟨i - 1, by omega⟩ j
    simp only [Nat.sub_add_cancel hi] at heq
    rw [heq]
    exact pinCost_nonneg ..
  obtain ⟨rows, hrw, has, hpt⟩ := assignRows_spec hnn h
  have hon : ∀ i : Fin groups.length, ∃ j, IsColumn lanes j ∧ rows.p j = i + 1 := fun i =>
    has.onto (i + 1) (by omega) i.2
  choose column hcl hro using hon
  have hps : ∀ i, column i - 1 + 1 = column i := fun i => Nat.sub_add_cancel (hcl i).1
  let pins : Fin groups.length → Fin lanes := fun i => ⟨column i - 1, by
    have := (hcl i).1
    have := (hcl i).2
    omega⟩
  have hpn : ∀ i, (pins i : ℕ) + 1 = column i := hps
  have hij : Function.Injective pins := by
    intro i i' heq
    have hcm : column i = column i' := by
      rw [← hpn i, ← hpn i', heq]
    have hrw' := hro i
    rw [hcm, hro i'] at hrw'
    exact Fin.ext (by omega)
  refine ⟨pins, ?_, hij, fun other hot => ?_⟩
  · unfold Input.assignPins
    rw [← hcs, hrw]
    show some ((List.range groups.length).map (rowColumns lanes rows.p)) = _
    rw [ofFn_eq_map, ← map_coe_finRange_eq_range, map_map]
    refine congrArg some (map_congr_left fun i _ => ?_)
    have heq := rowColumns_eq has (hcl i) (by rw [hro i]; omega)
    rw [hro i, Nat.add_sub_cancel] at heq
    refine heq.trans ?_
    have hct := hpn i
    omega
  · have hfs : ∀ (i : Fin groups.length) (j : Fin lanes),
        rows.u (i + 1) + rows.v (j + 1) ≤ input.pinCost lanes (groups.get i) (j + 1) := by
      intro i j
      have hrd := hpt.feasible (i + 1) (by omega) i.2 (j + 1) ⟨by omega, j.2⟩
      rw [reduced, hgt] at hrd
      linarith
    refine AssignmentDual.sum_le_of_potentials (u := fun i : Fin groups.length => rows.u (i + 1))
      (v := fun j : Fin lanes => rows.v (j + 1)) hfs
      (fun j => hpt.v_nonpos (j + 1) ⟨by omega, j.2⟩) hij (fun i => ?_)
      (fun j hj => ?_) hot
    · have htg := hpt.tight (column i) (hcl i) (by rw [hro i]; omega)
      rw [hro i, reduced, hgt, ← hpn i] at htg
      linarith
    · refine hpt.v_free (j + 1) ⟨by omega, j.2⟩ ?_
      by_contra hne
      have hle := has.le (j + 1) ⟨by omega, j.2⟩
      obtain ⟨i, hi⟩ : ∃ i : Fin groups.length, rows.p (j + 1) = i + 1 :=
        ⟨⟨rows.p (j + 1) - 1, by omega⟩, by
          show rows.p (j + 1) = rows.p (j + 1) - 1 + 1
          omega⟩
      have hsm := has.inj (j + 1) ⟨by omega, j.2⟩ (column i) (hcl i) hne
        (hi.trans (hro i).symm)
      refine hj i (Fin.ext ?_)
      have := hpn i
      omega

end EmuFlow.PinPlanner
