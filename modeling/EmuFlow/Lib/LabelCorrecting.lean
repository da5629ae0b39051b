import Mathlib.Data.DFinsupp.WellFounded
import Mathlib.Order.WellFounded
import Mathlib.Tactic

/-!
# Label-correcting search

Every node carries a label. A node taken from the queue offers labels to other nodes; an offer that
is smaller than the label of its target replaces it and queues the target, at the front or at the
back. Where the labels are well-ordered the search ends.
-/

namespace LabelCorrecting

open List
open Function (update update_of_ne update_self)

variable {ν ι : Type} [DecidableEq ν] [LinearOrder ι]

structure Offer (ν ι : Type) where
  target : ν
  label : ι
  /-- Queued at the front. -/
  front : Bool

structure State (ν ι : Type) where
  labels : ν → ι
  queue : List ν

variable (offers : ν → ι → List (Offer ν ι))

def relax (s : State ν ι) (offer : Offer ν ι) : State ν ι :=
  if offer.label < s.labels offer.target then
    { labels := update s.labels offer.target offer.label
      queue := if offer.front then offer.target :: s.queue else s.queue ++ [offer.target] }
  else
    s

/-- Work off the queue; `none` without the fuel to finish. -/
def loop : ℕ → State ν ι → Option (State ν ι)
  | 0, _ => none
  | fuel + 1, s =>
    match s.queue with
    | [] => some s
    | node :: queue =>
      loop fuel ((offers node (s.labels node)).foldl relax { s with queue := queue })

variable {offers} {s s' : State ν ι} {offer : Offer ν ι}

theorem relax_le (s : State ν ι) (offer : Offer ν ι) : (relax s offer).labels ≤ s.labels := by
  intro node
  by_cases h : offer.label < s.labels offer.target
  · rw [relax, if_pos h]
    by_cases hn : node = offer.target
    · subst hn
      simpa using h.le
    · simp [update_of_ne hn]
  · rw [relax, if_neg h]

theorem relax_cases (s : State ν ι) (offer : Offer ν ι) : relax s offer = s ∨
      ((relax s offer).labels < s.labels ∧
        (relax s offer).labels = update s.labels offer.target offer.label ∧
        ∀ node, node ∈ (relax s offer).queue ↔ node = offer.target ∨ node ∈ s.queue) := by
  by_cases h : offer.label < s.labels offer.target
  · refine .inr ⟨lt_of_le_of_ne (relax_le s offer) fun hs => ?_, by rw [relax, if_pos h],
      fun node => ?_⟩
    · have hl := congrFun hs offer.target
      rw [relax, if_pos h] at hl
      simp only [update_self] at hl
      exact absurd hl h.ne
    · rw [relax, if_pos h]
      cases offer.front <;> simp [or_comm]
  · exact .inl (by rw [relax, if_neg h])

theorem relax_label_le (s : State ν ι) (offer : Offer ν ι) :
    (relax s offer).labels offer.target ≤ offer.label := by
  by_cases h : offer.label < s.labels offer.target
  · rw [relax, if_pos h]
    simp
  · rw [relax, if_neg h]
    exact not_lt.mp h

/-! ## the offers of one node -/

theorem foldl_relax_le (l : List (Offer ν ι)) (s : State ν ι) :
    (l.foldl relax s).labels ≤ s.labels := by
  induction l generalizing s with
  | nil => exact le_refl _
  | cons offer l ih => exact le_trans (ih _) (relax_le s offer)

theorem foldl_relax_cases (l : List (Offer ν ι)) (s : State ν ι) :
    l.foldl relax s = s ∨ (l.foldl relax s).labels < s.labels := by
  induction l generalizing s with
  | nil => exact .inl rfl
  | cons offer l ih =>
    rw [foldl_cons]
    rcases relax_cases s offer with hs | ⟨hlt, -⟩
    · rw [hs]
      exact ih s
    · exact .inr (lt_of_le_of_lt (foldl_relax_le l _) hlt)

theorem foldl_relax_queue (l : List (Offer ν ι)) (s : State ν ι) (node : ν) :
    (node ∈ s.queue → node ∈ (l.foldl relax s).queue) ∧
      ((l.foldl relax s).labels node = s.labels node ∨ node ∈ (l.foldl relax s).queue) := by
  induction l generalizing s with
  | nil => exact ⟨id, .inl rfl⟩
  | cons offer l ih =>
    rw [foldl_cons]
    obtain ⟨hk, hc⟩ := ih (relax s offer)
    rcases relax_cases s offer with hs | ⟨-, hl, hq⟩
    · rw [hs] at hk hc ⊢
      exact ⟨hk, hc⟩
    · refine ⟨fun h => hk ((hq node).mpr (.inr h)), ?_⟩
      by_cases hn : node = offer.target
      · exact .inr (hk ((hq node).mpr (.inl hn)))
      · rcases hc with hlb | hm
        · left
          rw [hlb, hl, update_of_ne hn]
        · exact .inr hm

theorem foldl_relax_label_le {l : List (Offer ν ι)} (s : State ν ι) (h : offer ∈ l) :
    (l.foldl relax s).labels offer.target ≤ offer.label := by
  induction l generalizing s with
  | nil => exact absurd h not_mem_nil
  | cons first l ih =>
    rw [foldl_cons]
    rcases mem_cons.mp h with rfl | hm
    · exact le_trans (foldl_relax_le l _ _) (relax_label_le s _)
    · exact ih _ hm

theorem exists_loop [Finite ν] [WellFoundedLT ι] (offers : ν → ι → List (Offer ν ι)) :
    ∀ s : State ν ι, ∃ fuel s', loop offers fuel s = some s' := by
  have he : ∀ labels : ν → ι, ∀ queue : List ν,
      ∃ fuel s', loop offers fuel { labels := labels, queue := queue } = some s' := by
    intro labels
    -- on the labels, and for the same labels on the queue
    induction labels using WellFoundedLT.induction with
    | _ labels ih =>
      intro queue
      induction queue with
      | nil => exact ⟨1, _, rfl⟩
      | cons node queue ihqueue =>
        have hn : ∃ fuel s', loop offers fuel ((offers node (labels node)).foldl relax
            { labels := labels, queue := queue }) = some s' := by
          rcases foldl_relax_cases (offers node (labels node))
            { labels := labels, queue := queue } with hs | hlt
          · rw [hs]
            exact ihqueue
          · exact ih _ hlt _
        obtain ⟨fuel, s', h⟩ := hn
        exact ⟨fuel + 1, s', h⟩
  exact fun s => he s.labels s.queue

theorem loop_mono {fuel fuel' : ℕ} (hle : fuel ≤ fuel') (h : loop offers fuel s = some s') :
    loop offers fuel' s = some s' := by
  induction fuel generalizing s fuel' with
  | zero => cases h
  | succ fuel ih =>
    obtain ⟨fuel', rfl⟩ : ∃ k, fuel' = k + 1 := ⟨fuel' - 1, by omega⟩
    rw [loop] at h ⊢
    split at h
    · exact h
    · exact ih (by omega) h

/-- What every turn keeps holds at the end of the loop. -/
theorem loop_spec {P : State ν ι → Prop}
    (hp : ∀ (s : State ν ι) node queue, s.queue = node :: queue → P s →
      P ((offers node (s.labels node)).foldl relax { s with queue := queue }))
    {fuel : ℕ} (hs : P s) (h : loop offers fuel s = some s') : P s' ∧ s'.queue = [] := by
  induction fuel generalizing s with
  | zero => cases h
  | succ fuel ih =>
    rw [loop] at h
    split at h
    · next hq =>
      cases h
      exact ⟨hs, hq⟩
    · next node queue hq => exact ih (hp s node queue hq hs) h

/-! ## the labels at the end -/

/-- Every node is queued or has made offers that are all taken care of. -/
def Closed (offers : ν → ι → List (Offer ν ι)) (s : State ν ι) : Prop :=
  ∀ node, node ∈ s.queue ∨
    ∀ offer ∈ offers node (s.labels node), s.labels offer.target ≤ offer.label

theorem Closed.pop {node : ν} {queue : List ν} (hq : s.queue = node :: queue)
    (h : Closed offers s) :
    Closed offers ((offers node (s.labels node)).foldl relax { s with queue := queue }) := by
  intro other
  have hle := foldl_relax_le (offers node (s.labels node)) { s with queue := queue }
  obtain ⟨hk, hs | hm⟩ :=
    foldl_relax_queue (offers node (s.labels node)) { s with queue := queue } other
  · by_cases hot : other = node
    · subst hot
      refine .inr fun offer ho => ?_
      rw [hs] at ho
      exact foldl_relax_label_le _ ho
    · rcases h other with hm | ha
      · rw [hq] at hm
        exact .inl (hk ((mem_cons.mp hm).resolve_left hot))
      · refine .inr fun offer ho => ?_
        rw [hs] at ho
        exact le_trans (hle offer.target) (ha offer ho)
  · exact .inl hm

theorem Closed.loop {fuel : ℕ} (h : Closed offers s) (hl : loop offers fuel s = some s') :
    ∀ node, ∀ offer ∈ offers node (s'.labels node), s'.labels offer.target ≤ offer.label := by
  obtain ⟨hc, he⟩ := loop_spec (fun s node queue hq hs => hs.pop hq) h hl
  intro node
  refine (hc node).resolve_left ?_
  rw [he]
  exact not_mem_nil

theorem Sound.loop {P : ν → ι → Prop}
    (hof : ∀ node label, P node label → ∀ offer ∈ offers node label, P offer.target offer.label)
    {fuel : ℕ} (hs : ∀ node, P node (s.labels node)) (hlp : loop offers fuel s = some s') :
    ∀ node, P node (s'.labels node) := by
  refine (loop_spec (P := fun s => ∀ node, P node (s.labels node)) ?_ hs hlp).1
  intro s node queue _ hs
  have hf : ∀ (l : List (Offer ν ι)) (s : State ν ι), (∀ offer ∈ l, P offer.target offer.label) →
      (∀ node, P node (s.labels node)) → ∀ node, P node ((l.foldl relax s).labels node) := by
    intro l
    induction l with
    | nil => exact fun _ _ hs => hs
    | cons offer l ih =>
      intro s hl hs
      refine ih _ (fun o ho => hl o (mem_cons_of_mem _ ho)) fun node => ?_
      rcases relax_cases s offer with hsm | ⟨-, hlb, -⟩
      · rw [hsm]
        exact hs node
      · rw [hlb]
        by_cases hn : node = offer.target
        · subst hn
          rw [update_self]
          exact hl offer mem_cons_self
        · rw [update_of_ne hn]
          exact hs node
  exact hf _ _ (hof node _ (hs node)) hs

theorem loop_le {fuel : ℕ} (hl : loop offers fuel s = some s') : s'.labels ≤ s.labels := by
  refine (loop_spec (P := fun t => t.labels ≤ s.labels) ?_ (le_refl _) hl).1
  exact fun t node queue _ ht => le_trans (foldl_relax_le _ _) ht

def Supported (offers : ν → ι → List (Offer ν ι)) (first : ν → ι) (s : State ν ι) : Prop :=
  ∀ node, s.labels node = first node ∨ ∃ other label, s.labels other ≤ label ∧
    ∃ offer ∈ offers other label, offer.target = node ∧ offer.label = s.labels node

theorem Supported.relax {first : ν → ι} (h : Supported offers first s) {other : ν} {label : ι}
    (hle : s.labels other ≤ label) (ho : offer ∈ offers other label) :
    Supported offers first (relax s offer) := by
  intro node
  have hm := relax_le s offer
  rcases relax_cases s offer with hs | ⟨-, hl, -⟩
  · rw [hs]
    exact h node
  · by_cases hn : node = offer.target
    · refine .inr ⟨other, label, le_trans (hm other) hle, offer, ho, hn.symm, ?_⟩
      rw [hl, hn, update_self]
    · have hn' : (LabelCorrecting.relax s offer).labels node = s.labels node := by
        rw [hl, update_of_ne hn]
      rw [hn']
      rcases h node with hf | ⟨from', label', hle', hr⟩
      · exact .inl hf
      · exact .inr ⟨from', label', le_trans (hm from') hle', hr⟩

theorem Supported.loop {fuel : ℕ} (hlp : loop offers fuel s = some s') :
    Supported offers s.labels s' := by
  refine (loop_spec (P := Supported offers s.labels) ?_ (fun _ => .inl rfl) hlp).1
  intro t node queue _ ht
  have hf : ∀ (l : List (Offer ν ι)) (u : State ν ι), u.labels node ≤ t.labels node →
      (∀ offer ∈ l, offer ∈ offers node (t.labels node)) → Supported offers s.labels u →
      Supported offers s.labels (l.foldl LabelCorrecting.relax u) := by
    intro l
    induction l with
    | nil => exact fun _ _ _ hu => hu
    | cons offer l ih =>
      intro u hle hl hu
      exact ih _ (le_trans (relax_le u offer node) hle) (fun o ho => hl o (mem_cons_of_mem _ ho))
        (hu.relax hle (hl offer mem_cons_self))
  exact hf _ _ (le_refl _) (fun _ ho => ho) ht

end LabelCorrecting
