import Mathlib.Data.Fintype.Card
import Mathlib.Tactic

/-!
# Propagation over domains

Every node has a domain, the list of values it may still take. A node with a single value left is
propagated once: it filters the domains of other nodes, and a node that is left with one value
becomes the next to propagate. `targets` says which nodes a value filters, and what they keep.
-/

namespace DomainPropagation

open List
open Function (update update_of_ne update_self)

variable {ι κ : Type} [DecidableEq ι] [DecidableEq κ]

/-- The domains, and the nodes whose value was propagated. -/
structure State (ι κ : Type) where
  domain : ι → List κ
  processed : ι → Bool

/-- The nodes to propagate, in order, and those whose domain has changed. -/
structure Work (ι κ : Type) extends State ι κ where
  queue : List ι
  changed : ι → Bool

/-- The nodes that a value of a node filters, with what they keep. -/
abbrev Targets (ι κ : Type) : Type := ι → κ → List (ι × (κ → Bool))

/-- Filter one domain, and queue its node once it has a single value. -/
def narrow (w : Work ι κ) (target : ι × (κ → Bool)) : Work ι κ :=
  let filtered := (w.domain target.1).filter target.2
  if filtered = w.domain target.1 then w
  else
    { domain := update w.domain target.1 filtered
      processed := w.processed
      queue :=
        if filtered.length = 1 ∧ w.processed target.1 = false ∧ target.1 ∉ w.queue then
          w.queue ++ [target.1]
        else w.queue
      changed := update w.changed target.1 true }

def firing (targets : Targets ι κ) (s : State ι κ) (anchor : ι) : List (ι × (κ → Bool)) :=
  match s.processed anchor, s.domain anchor with
  | false, [value] => targets anchor value
  | _, _ => []

/-- The nodes that were propagated, with one more where it has a single value. -/
def marked (s : State ι κ) (anchor : ι) : ι → Bool :=
  match s.domain anchor with
  | [_] => update s.processed anchor true
  | _ => s.processed

def turn (targets : Targets ι κ) (w : Work ι κ) (anchor : ι) : Work ι κ :=
  (firing targets w.toState anchor).foldl narrow { w with processed := marked w.toState anchor }

/-- Work off the queue, for at most `fuel` nodes. -/
def drain (targets : Targets ι κ) : ℕ → Work ι κ → Work ι κ
  | 0, w => w
  | fuel + 1, w =>
    match w.queue with
    | [] => w
    | anchor :: queue => drain targets fuel (turn targets { w with queue := queue } anchor)

def enqueue (processed : ι → Bool) (anchors : List ι) : List ι :=
  anchors.foldl (fun queue anchor =>
    if processed anchor = false ∧ anchor ∉ queue then queue ++ [anchor] else queue) []

def start (s : State ι κ) (anchors : List ι) : Work ι κ :=
  { s with queue := enqueue s.processed anchors, changed := fun _ => false }

def run (targets : Targets ι κ) (fuel : ℕ) (s : State ι κ) (anchors : List ι) : Work ι κ :=
  drain targets fuel (start s anchors)

/-! ## one filter -/

section narrow

variable (w : Work ι κ) (target : ι × (κ → Bool))

theorem narrow_domain (node : ι) : (narrow w target).domain node =
      if node = target.1 then (w.domain node).filter target.2 else w.domain node := by
  unfold narrow
  dsimp only
  by_cases heq : (w.domain target.1).filter target.2 = w.domain target.1
  · rw [if_pos heq]
    split
    · next hn => rw [hn, heq]
    · rfl
  · rw [if_neg heq]
    show update w.domain target.1 _ node = _
    by_cases hn : node = target.1
    · rw [if_pos hn, hn, update_self]
    · rw [if_neg hn, update_of_ne hn]

@[simp] theorem narrow_processed : (narrow w target).processed = w.processed := by
  unfold narrow
  dsimp only
  split <;> rfl

theorem mem_narrow_queue {node : ι} (h : node ∈ (narrow w target).queue) :
    node ∈ w.queue ∨ node = target.1 ∧
      ((w.domain node).filter target.2).length < (w.domain node).length := by
  unfold narrow at h
  dsimp only at h
  split at h
  · exact .inl h
  · next hne =>
    dsimp only at h
    split at h
    · rcases List.mem_append.mp h with h | h
      · exact .inl h
      · obtain rfl := mem_singleton.mp h
        exact .inr ⟨rfl, lt_of_le_of_ne (length_filter_le _ _) fun heq =>
          hne (filter_eq_self.mpr (length_filter_eq_length_iff.mp heq))⟩
    · exact .inl h

theorem queue_subset_narrow {node : ι} (h : node ∈ w.queue) : node ∈ (narrow w target).queue := by
  unfold narrow
  dsimp only
  split
  · exact h
  · dsimp only
    split
    · exact mem_append_left _ h
    · exact h

theorem mem_queue_of_narrowed (hp : w.processed target.1 = false)
    (hne : (w.domain target.1).filter target.2 ≠ w.domain target.1)
    (ho : ((w.domain target.1).filter target.2).length = 1) :
    target.1 ∈ (narrow w target).queue := by
  unfold narrow
  dsimp only
  rw [if_neg hne]
  dsimp only
  split
  · simp
  · next hn =>
    by_contra hm
    exact hn ⟨ho, hp, hm⟩

end narrow

omit [DecidableEq κ] in
theorem marked_apply (s : State ι κ) (anchor node : ι) : marked s anchor node = true ↔
      (node = anchor ∧ ∃ value, s.domain anchor = [value]) ∨ s.processed node = true := by
  have hc : (∃ value, s.domain anchor = [value] ∧
      marked s anchor = update s.processed anchor true) ∨
      (¬ ∃ value, s.domain anchor = [value]) ∧ marked s anchor = s.processed := by
    unfold marked
    match s.domain anchor with
    | [value] => exact .inl ⟨value, rfl, rfl⟩
    | [] => exact .inr ⟨by simp, rfl⟩
    | _ :: _ :: _ => exact .inr ⟨by simp, rfl⟩
  rcases hc with ⟨value, hd, heq⟩ | ⟨hd, heq⟩
  · rw [heq]
    by_cases hn : node = anchor
    · rw [hn, update_self]
      exact ⟨fun _ => .inl ⟨rfl, value, hd⟩, fun _ => rfl⟩
    · rw [update_of_ne hn]
      exact ⟨.inr, fun h => h.resolve_left fun h => hn h.1⟩
  · rw [heq]
    exact ⟨.inr, fun h => h.resolve_left fun h => hd h.2⟩

theorem turn_processed (targets : Targets ι κ) (w : Work ι κ) (anchor : ι) :
    (turn targets w anchor).processed = marked w.toState anchor := by
  have hf : ∀ (list : List (ι × (κ → Bool))) (w : Work ι κ),
      (list.foldl narrow w).processed = w.processed := by
    intro list
    induction list with
    | nil => exact fun _ => rfl
    | cons target rest ih => exact fun w => (ih (narrow w target)).trans (narrow_processed w target)
  exact hf _ _

/-! ## smaller domains -/

/-- The domains are what is left of others. -/
def Below (d e : ι → List κ) : Prop := ∀ node, ∃ keep : κ → Bool, d node = (e node).filter keep

omit [DecidableEq ι] [DecidableEq κ] in
theorem Below.refl (d : ι → List κ) : Below d d := fun _ =>
  ⟨fun _ => true, (filter_eq_self.mpr fun _ _ => rfl).symm⟩

variable {d e : ι → List κ} {node : ι} {value : κ}

omit [DecidableEq ι] [DecidableEq κ] in
theorem Below.mem (h : Below d e) (hv : value ∈ d node) : value ∈ e node := by
  obtain ⟨keep, heq⟩ := h node
  rw [heq] at hv
  exact (mem_filter.mp hv).1

omit [DecidableEq ι] [DecidableEq κ] in
theorem Below.trans {d e f : ι → List κ} (hde : Below d e) (hef : Below e f) : Below d f := by
  intro node
  obtain ⟨keep, hd⟩ := hde node
  obtain ⟨keep', he⟩ := hef node
  exact ⟨_, by rw [hd, he, filter_filter]⟩

omit [DecidableEq ι] [DecidableEq κ] in
theorem Below.below_of_subset {d e f : ι → List κ} (hdf : Below d f) (hef : Below e f)
    (h : ∀ node, ∀ value ∈ d node, value ∈ e node) : Below d e := by
  intro node
  obtain ⟨keep, hd⟩ := hdf node
  obtain ⟨keep', he⟩ := hef node
  refine ⟨keep, ?_⟩
  rw [he, filter_filter, hd]
  refine filter_congr fun value hv => ?_
  cases hk : keep value with
  | false => rfl
  | true =>
    have hm := h node value (by rw [hd]; exact mem_filter.mpr ⟨hv, hk⟩)
    rw [he] at hm
    simp [(mem_filter.mp hm).2]

omit [DecidableEq ι] [DecidableEq κ] in
theorem Below.antisymm (hde : Below d e) (he : Below e d) : d = e := by
  funext node
  obtain ⟨keep, hd⟩ := hde node
  rw [hd, filter_eq_self]
  intro value hv
  have hm := he.mem hv
  rw [hd] at hm
  exact (mem_filter.mp hm).2

omit [DecidableEq ι] [DecidableEq κ] in
theorem Below.length_le (h : Below d e) (node : ι) : (d node).length ≤ (e node).length := by
  obtain ⟨keep, heq⟩ := h node
  rw [heq]
  exact length_filter_le _ _

omit [DecidableEq ι] [DecidableEq κ] in
theorem Below.of_single (h : Below d e)
    (hs : e node = [value] ∨ e node = []) : d node = [value] ∨ d node = [] := by
  obtain ⟨keep, hd⟩ := h node
  rcases hs with heq | heq
  · rw [hd, heq, filter_singleton]
    cases keep value with
    | true => exact .inl rfl
    | false => exact .inr rfl
  · exact .inr (by rw [hd, heq, filter_nil])

theorem narrow_below (w : Work ι κ) (target : ι × (κ → Bool)) :
    Below (narrow w target).domain w.domain := by
  intro node
  rw [narrow_domain]
  split
  · exact ⟨_, rfl⟩
  · exact Below.refl _ node

theorem foldl_narrow_below (targets : List (ι × (κ → Bool))) (w : Work ι κ) :
    Below (targets.foldl narrow w).domain w.domain := by
  induction targets generalizing w with
  | nil => exact Below.refl _
  | cons target rest ih => exact (ih (narrow w target)).trans (narrow_below w target)

theorem turn_below (targets : Targets ι κ) (w : Work ι κ) (anchor : ι) :
    Below (turn targets w anchor).domain w.domain := foldl_narrow_below _ _

theorem drain_below (targets : Targets ι κ) (fuel : ℕ) (w : Work ι κ) :
    Below (drain targets fuel w).domain w.domain := by
  induction fuel generalizing w with
  | zero => exact Below.refl _
  | succ fuel ih =>
    unfold drain
    split
    · exact Below.refl _
    · exact (ih _).trans (turn_below targets _ _)

/-! ## soundness -/

def Respects (targets : Targets ι κ) (choice : ι → κ) : Prop :=
  ∀ anchor, ∀ target ∈ targets anchor (choice anchor), target.2 (choice target.1) = true

variable {anchor : ι} {s : State ι κ} {targets : Targets ι κ}

omit [DecidableEq ι] [DecidableEq κ] in
theorem firing_eq {target : ι × (κ → Bool)} (h : target ∈ firing targets s anchor) :
    ∃ value, s.processed anchor = false ∧ s.domain anchor = [value] ∧
      firing targets s anchor = targets anchor value := by
  unfold firing at h ⊢
  split at h
  · next value hp hd => exact ⟨value, hp, hd, rfl⟩
  · cases h

variable {w : Work ι κ}

theorem mem_foldl_narrow {targets : List (ι × (κ → Bool))}
    (hk : ∀ target ∈ targets, target.1 = node → target.2 value = true)
    (h : value ∈ w.domain node) : value ∈ (targets.foldl narrow w).domain node := by
  induction targets generalizing w with
  | nil => exact h
  | cons target rest ih =>
    refine ih (fun t ht => hk t (mem_cons_of_mem _ ht)) ?_
    rw [narrow_domain]
    split
    · next hn => exact mem_filter.mpr ⟨h, hk target mem_cons_self hn.symm⟩
    · exact h

variable {choice : ι → κ}

theorem mem_turn (hr : Respects targets choice)
    (h : ∀ node, choice node ∈ w.domain node) (anchor node : ι) :
    choice node ∈ (turn targets w anchor).domain node := by
  refine mem_foldl_narrow (fun target ht hn => ?_) (h node)
  obtain ⟨value, -, hd, hf⟩ := firing_eq ht
  -- the only value left is the chosen one
  have hv : choice anchor = value := by
    have hm := h anchor
    rw [show w.domain anchor = [value] from hd] at hm
    exact mem_singleton.mp hm
  rw [hf, ← hv] at ht
  subst hn
  exact hr anchor target ht

theorem mem_drain (hr : Respects targets choice)
    (fuel : ℕ) (h : ∀ node, choice node ∈ w.domain node) (node : ι) :
    choice node ∈ (drain targets fuel w).domain node := by
  induction fuel generalizing w with
  | zero => exact h node
  | succ fuel ih =>
    unfold drain
    split
    · exact h node
    · next anchor queue _ =>
      have hp : ∀ node, choice node ∈ ({ w with queue := queue } : Work ι κ).domain node := h
      exact ih fun node => mem_turn hr hp anchor node

theorem mem_run (hr : Respects targets choice)
    (fuel : ℕ) (anchors : List ι) (h : ∀ node, choice node ∈ s.domain node)
    (node : ι) : choice node ∈ (run targets fuel s anchors).domain node :=
  mem_drain hr fuel h node

/-! ## the queue is worked off -/

section fuel

variable [Fintype ι]

/-- The nodes that may still be queued, and those that are. -/
def remaining (w : Work ι κ) : ℕ :=
  w.queue.length + (Finset.univ.filter fun node => 2 ≤ (w.domain node).length).card

omit [DecidableEq ι] [DecidableEq κ] in
theorem card_le_of_below {d e : ι → List κ} (h : Below d e) :
    (Finset.univ.filter fun node => 2 ≤ (d node).length).card ≤
      (Finset.univ.filter fun node => 2 ≤ (e node).length).card := by
  refine Finset.card_le_card fun node hn => ?_
  rw [Finset.mem_filter] at hn ⊢
  exact ⟨hn.1, hn.2.trans (h.length_le node)⟩

theorem remaining_narrow (w : Work ι κ) (target : ι × (κ → Bool)) :
    remaining (narrow w target) ≤ remaining w := by
  have hc := card_le_of_below (narrow_below w target)
  unfold remaining at *
  by_cases heq : (w.domain target.1).filter target.2 = w.domain target.1
  · simp [narrow, heq]
  · by_cases hp : ((w.domain target.1).filter target.2).length = 1 ∧
        w.processed target.1 = false ∧ target.1 ∉ w.queue
    · -- the node that is queued had more values before
      have hl : 2 ≤ (w.domain target.1).length := by
        have hlt : ((w.domain target.1).filter target.2).length < (w.domain target.1).length :=
          lt_of_le_of_ne (length_filter_le _ _) fun h =>
            heq (filter_eq_self.mpr (length_filter_eq_length_iff.mp h))
        omega
      have hq : (narrow w target).queue = w.queue ++ [target.1] := by
        simp only [narrow, if_neg heq, if_pos hp]
      have hlt : (Finset.univ.filter fun node =>
            2 ≤ ((narrow w target).domain node).length).card <
          (Finset.univ.filter fun node => 2 ≤ (w.domain node).length).card := by
        refine Finset.card_lt_card (Finset.ssubset_iff_of_subset ?_ |>.mpr ⟨target.1, ?_, ?_⟩)
        · intro node hn
          rw [Finset.mem_filter] at hn ⊢
          exact ⟨hn.1, hn.2.trans ((narrow_below w target).length_le node)⟩
        · exact Finset.mem_filter.mpr ⟨Finset.mem_univ _, hl⟩
        · rw [Finset.mem_filter, narrow_domain, if_pos rfl, hp.1]
          omega
      rw [hq, length_append, length_singleton]
      omega
    · have hq : (narrow w target).queue = w.queue := by
        simp only [narrow, if_neg heq, if_neg hp]
      rw [hq]
      omega

theorem remaining_turn (targets : Targets ι κ) (w : Work ι κ) (anchor : ι) :
    remaining (turn targets w anchor) ≤ remaining w := by
  have hf : ∀ (list : List (ι × (κ → Bool))) (w : Work ι κ),
      remaining (list.foldl narrow w) ≤ remaining w := by
    intro list
    induction list with
    | nil => exact fun _ => le_rfl
    | cons target rest ih =>
      exact fun w => (ih (narrow w target)).trans (remaining_narrow w target)
  exact hf _ { w with processed := marked w.toState anchor }

theorem drain_queue (targets : Targets ι κ) : ∀ {fuel : ℕ} {w : Work ι κ},
    remaining w ≤ fuel → (drain targets fuel w).queue = []
  | 0, w, h => by
    have hl : w.queue.length = 0 := by
      unfold remaining at h
      omega
    exact length_eq_zero_iff.mp hl
  | fuel + 1, w, h => by
    unfold drain
    split
    · next hq => exact hq
    · next anchor queue hq =>
      refine drain_queue targets ((remaining_turn targets _ anchor).trans ?_)
      unfold remaining at h ⊢
      rw [hq, length_cons] at h
      show queue.length + (Finset.univ.filter fun node => 2 ≤ (w.domain node).length).card ≤ fuel
      omega

omit [DecidableEq κ] [Fintype ι] in
theorem mem_enqueue {processed : ι → Bool} {anchors : List ι} {node : ι} :
    node ∈ enqueue processed anchors ↔ node ∈ anchors ∧ processed node = false := by
  have hf : ∀ (anchors queue : List ι), node ∈ anchors.foldl (fun queue anchor =>
      if processed anchor = false ∧ anchor ∉ queue then queue ++ [anchor] else queue) queue ↔
      node ∈ queue ∨ node ∈ anchors ∧ processed node = false := by
    intro anchors
    induction anchors with
    | nil => simp
    | cons anchor rest ih =>
      intro queue
      rw [foldl_cons, ih]
      by_cases hps : processed anchor = false ∧ anchor ∉ queue
      · rw [if_pos hps, List.mem_append, mem_singleton, mem_cons]
        constructor
        · rintro ((h | rfl) | h)
          · exact .inl h
          · exact .inr ⟨.inl rfl, hps.1⟩
          · exact .inr ⟨.inr h.1, h.2⟩
        · rintro (h | ⟨rfl | h, hp⟩)
          · exact .inl (.inl h)
          · exact .inl (.inr rfl)
          · exact .inr ⟨h, hp⟩
      · rw [if_neg hps, mem_cons]
        constructor
        · rintro (h | h)
          · exact .inl h
          · exact .inr ⟨.inr h.1, h.2⟩
        · rintro (h | ⟨rfl | h, hp⟩)
          · exact .inl h
          · by_contra hn
            exact hps ⟨hp, fun hm => hn (.inl hm)⟩
          · exact .inr ⟨h, hp⟩
  simpa [enqueue] using hf anchors []

omit [DecidableEq κ] [Fintype ι] in
theorem length_enqueue_le (processed : ι → Bool) (anchors : List ι) :
    (enqueue processed anchors).length ≤ anchors.length := by
  have hf : ∀ (anchors queue : List ι), (anchors.foldl (fun queue anchor =>
      if processed anchor = false ∧ anchor ∉ queue then queue ++ [anchor] else
        queue) queue).length ≤
      queue.length + anchors.length := by
    intro anchors
    induction anchors with
    | nil => simp
    | cons anchor rest ih =>
      intro queue
      rw [foldl_cons, length_cons]
      refine (ih _).trans ?_
      split
      · rw [length_append, length_singleton]
        omega
      · omega
  simpa [enqueue] using hf anchors []

theorem run_queue (targets : Targets ι κ) {fuel : ℕ} (s : State ι κ) {anchors : List ι}
    (hf : anchors.length + Fintype.card ι ≤ fuel) : (run targets fuel s anchors).queue = [] := by
  refine drain_queue targets (le_trans ?_ hf)
  have hq := length_enqueue_le s.processed anchors
  have hc := Finset.card_filter_le (Finset.univ : Finset ι) fun node =>
    2 ≤ (s.domain node).length
  show (enqueue s.processed anchors).length + _ ≤ _
  rw [Finset.card_univ] at hc
  exact Nat.add_le_add hq hc

end fuel

/-! ## the order of the queue -/

structure Settled (targets : Targets ι κ) (d : ι → List κ) (node : ι) (value : κ) : Prop where
  single : d node = [value] ∨ d node = []
  passed : ∀ target ∈ targets node value, ∀ v ∈ d target.1, target.2 v = true

omit [DecidableEq ι] [DecidableEq κ] in
theorem Settled.below
    (h : Settled targets e node value) (hb : Below d e) : Settled targets d node value :=
  ⟨hb.of_single h.single, fun target ht v hv => h.passed target ht v (hb.mem hv)⟩

/-- The node may be propagated: it is an anchor, or it has lost a value. -/
def Entitled (s : State ι κ) (anchors : List ι) (d : ι → List κ) (node : ι) : Prop :=
  node ∈ anchors ∨ (d node).length < (s.domain node).length

omit [DecidableEq ι] [DecidableEq κ] in
theorem Entitled.below {anchors : List ι}
    (h : Entitled s anchors e node) (hb : Below d e) : Entitled s anchors d node :=
  h.imp id fun hlt => (hb.length_le node).trans_lt hlt

/-- What holds while the queue is worked off, a node left out. -/
structure Inv (targets : Targets ι κ) (s : State ι κ) (anchors : List ι) (except : ι → Prop)
    (w : Work ι κ) : Prop where
  below : Below w.domain s.domain
  kept : ∀ node, s.processed node = true → w.processed node = true
  entitled : ∀ node ∈ w.queue, Entitled s anchors w.domain node
  propagated : ∀ node, w.processed node = true → s.processed node = false →
    Entitled s anchors w.domain node
  pending : ∀ node value, w.processed node = false → Entitled s anchors w.domain node →
    w.domain node = [value] → node ∈ w.queue
  settled : ∀ node, ¬ except node → w.processed node = true → s.processed node = false →
    ∃ value, Settled targets w.domain node value

omit [DecidableEq κ] in
theorem Inv.start (targets : Targets ι κ) (s : State ι κ) (anchors : List ι) :
    Inv targets s anchors (fun _ => False) (start s anchors) where
  below := Below.refl _
  kept := fun _ h => h
  entitled := fun _ h => .inl (mem_enqueue.mp h).1
  propagated := fun _ h h' => by
    rw [show s.processed _ = true from h] at h'
    cases h'
  pending := fun node value hp h _ => by
    rcases h with h | h
    · exact mem_enqueue.mpr ⟨h, hp⟩
    · exact absurd h (lt_irrefl _)
  settled := fun _ _ h h' => by
    rw [show s.processed _ = true from h] at h'
    cases h'

theorem Inv.narrow {anchors : List ι} {except : ι → Prop}
    (h : Inv targets s anchors except w) (target : ι × (κ → Bool)) :
    Inv targets s anchors except (narrow w target) := by
  have hb := narrow_below w target
  have hp := narrow_processed w target
  constructor
  · exact hb.trans h.below
  · intro node hn
    rw [hp]
    exact h.kept node hn
  · intro node hn
    rcases mem_narrow_queue w target hn with ho | ⟨rfl, hlt⟩
    · exact (h.entitled node ho).below hb
    · right
      rw [narrow_domain, if_pos rfl]
      exact hlt.trans_le (h.below.length_le _)
  · intro node hn hs
    rw [hp] at hn
    exact (h.propagated node hn hs).below hb
  · intro node value hn he hsn
    rw [hp] at hn
    by_cases hsm : (DomainPropagation.narrow w target).domain node = w.domain node
    · rw [hsm] at hsn
      refine queue_subset_narrow w target (h.pending node value hn ?_ hsn)
      unfold Entitled at he ⊢
      rwa [hsm] at he
    · -- the filter has left the node with one value
      rw [narrow_domain] at hsm hsn
      split at hsm
      · next heq =>
        subst heq
        rw [if_pos rfl] at hsn
        exact mem_queue_of_narrowed w target hn hsm (by rw [hsn]; rfl)
      · exact absurd rfl hsm
  · intro node hex hn hs
    rw [hp] at hn
    obtain ⟨value, hst⟩ := h.settled node hex hn hs
    exact ⟨value, hst.below hb⟩

theorem foldl_narrow_passed : ∀ (list : List (ι × (κ → Bool))) (w : Work ι κ),
    ∀ target ∈ list, ∀ v ∈ (list.foldl narrow w).domain target.1, target.2 v = true
  | [], _, _, h => absurd h (not_mem_nil)
  | first :: rest, w, target, h => by
    rcases mem_cons.mp h with rfl | h
    · intro v hv
      have hm := (foldl_narrow_below rest (narrow w target)).mem hv
      rw [narrow_domain, if_pos rfl] at hm
      exact (mem_filter.mp hm).2
    · exact foldl_narrow_passed rest (narrow w first) target h

theorem Inv.foldl_narrow {anchors : List ι} {except : ι → Prop} (list : List (ι × (κ → Bool))) :
    ∀ {w : Work ι κ}, Inv targets s anchors except w →
      Inv targets s anchors except (list.foldl DomainPropagation.narrow w) := by
  induction list with
  | nil => exact fun h => h
  | cons target rest ih => exact fun h => ih (h.narrow target)

theorem Inv.turn {anchors : List ι} (h : Inv targets s anchors (fun _ => False) w) {queue : List ι}
    (hqu : w.queue = anchor :: queue) :
    Inv targets s anchors (fun _ => False) (turn targets { w with queue := queue } anchor) := by
  have hen : Entitled s anchors w.domain anchor := h.entitled anchor (hqu ▸ mem_cons_self)
  -- before the filters: the anchor is marked, and left out of what is settled
  have hmk : Inv targets s anchors (fun node => node = anchor ∧ w.processed node = false)
      { w with queue := queue, processed := marked w.toState anchor } := by
    have hmr := marked_apply w.toState anchor
    have hkp : ∀ node, w.processed node = true → marked w.toState anchor node = true :=
      fun node hnd => (hmr node).mpr (.inr hnd)
    constructor
    · exact h.below
    · exact fun node hnd => hkp node (h.kept node hnd)
    · exact fun node hnd => h.entitled node (hqu ▸ mem_cons_of_mem _ hnd)
    · intro node hnd hs
      rcases (hmr node).mp hnd with ⟨rfl, -⟩ | hol
      · exact hen
      · exact h.propagated node hol hs
    · intro node value hnd hent hsn
      have hnt : ¬ marked w.toState anchor node = true := by
        rw [show marked w.toState anchor node = false from hnd]
        exact Bool.false_ne_true
      have hol : w.processed node = false := Bool.eq_false_iff.mpr fun hp => hnt (hkp node hp)
      have hmm := h.pending node value hol hent hsn
      rw [hqu] at hmm
      rcases mem_cons.mp hmm with rfl | hmm
      · -- an anchor with one value is marked
        exact absurd ((hmr node).mpr (.inl ⟨rfl, value, hsn⟩)) hnt
      · exact hmm
    · intro node hex hnd hs
      have hol : w.processed node = true := by
        rcases (hmr node).mp hnd with ⟨rfl, -⟩ | hol
        · by_contra hp
          exact hex ⟨rfl, by simpa using hp⟩
        · exact hol
      exact h.settled node (fun hf => hf) hol hs
  have hfl := hmk.foldl_narrow (firing targets w.toState anchor)
  have htr : DomainPropagation.turn targets { w with queue := queue } anchor =
      (firing targets w.toState anchor).foldl DomainPropagation.narrow
        { w with queue := queue, processed := marked w.toState anchor } := rfl
  rw [htr]
  refine { hfl with settled := fun node _ hnd hs => ?_ }
  by_cases hnw : node = anchor ∧ w.processed node = false
  · obtain ⟨rfl, hp⟩ := hnw
    -- the anchor that was just marked has fired
    have hpr : marked w.toState node node = true := by
      rw [← turn_processed targets { w with queue := queue } node, htr]
      exact hnd
    rcases (marked_apply w.toState node node).mp hpr with ⟨-, value, hdm⟩ | hol
    · have hfr : firing targets w.toState node = targets node value := by
        simp [firing, hp, hdm]
      refine ⟨value, (foldl_narrow_below _ _).of_single (.inl hdm), fun target htg => ?_⟩
      exact foldl_narrow_passed _ _ target (hfr ▸ htg)
    · rw [hp] at hol
      cases hol
  · exact hfl.settled node hnw hnd hs

theorem Inv.drain {anchors : List ι} (fuel : ℕ) :
    ∀ {w : Work ι κ}, Inv targets s anchors (fun _ => False) w →
      Inv targets s anchors (fun _ => False) (drain targets fuel w) := by
  induction fuel with
  | zero => exact fun h => h
  | succ fuel ih =>
    intro w h
    unfold DomainPropagation.drain
    split
    · exact h
    · next anchor queue hq => exact ih (h.turn hq)

/-- **What a run leaves**: everything that holds while the queue is worked off. -/
theorem inv_run (targets : Targets ι κ) (fuel : ℕ) (s : State ι κ) (anchors : List ι) :
    Inv targets s anchors (fun _ => False) (run targets fuel s anchors) :=
  (Inv.start targets s anchors).drain fuel

/-! ## the order of the anchors -/

/-- No domain is emptied. -/
def KeepsNonempty (d e : ι → List κ) : Prop := ∀ node, e node ≠ [] → d node ≠ []

/-- The values and the marks of one run are those of another that is worked off. -/
structure Dominates (w f : Work ι κ) : Prop where
  subset : ∀ node, ∀ value ∈ f.domain node, value ∈ w.domain node
  marked : ∀ node, w.processed node = true → f.processed node = true

variable {anchors anchors' : List ι}

section

variable (hanchors : ∀ node ∈ anchors', node ∈ anchors)
include hanchors

theorem Dominates.turn {w f : Work ι κ} (hd : Dominates w f)
    (hw : Inv targets s anchors' (fun _ => False) w)
    (hf : Inv targets s anchors (fun _ => False) f) (hdn : f.queue = [])
    (hnn : KeepsNonempty f.domain s.domain) {queue : List ι}
    (hqu : w.queue = anchor :: queue) :
    Dominates (turn targets { w with queue := queue } anchor) f := by
  have hbl : Below f.domain w.domain := hf.below.below_of_subset hw.below hd.subset
  -- an anchor with one value has it in the other run too, and was propagated there
  have hfn : ∀ value, w.processed anchor = false → w.domain anchor = [value] →
      f.processed anchor = true ∧ f.domain anchor = [value] ∧
        ∃ v, Settled targets f.domain anchor v := by
    intro value hp hdm
    have hs : s.processed anchor = false := by
      by_contra h
      rw [hw.kept anchor (by simpa using h)] at hp
      cases hp
    have hfd : f.domain anchor = [value] := by
      rcases hbl.of_single (.inl hdm) with heq | heq
      · exact heq
      · have hps : value ∈ s.domain anchor :=
          hw.below.mem (by rw [hdm]; exact mem_singleton_self value)
        exact absurd heq (hnn anchor (ne_nil_of_mem hps))
    have hen : Entitled s anchors f.domain anchor := by
      rcases hw.entitled anchor (hqu ▸ mem_cons_self) with h | h
      · exact .inl (hanchors anchor h)
      · right
        rw [hfd]
        rwa [hdm] at h
    have hfp : f.processed anchor = true := by
      by_contra h
      have hmm := hf.pending anchor value (by simpa using h) hen hfd
      rw [hdn] at hmm
      cases hmm
    exact ⟨hfp, hfd, hf.settled anchor (fun h => h) hfp hs⟩
  constructor
  · intro node v hv
    refine mem_foldl_narrow (fun target htr hnd => ?_) (hd.subset node v hv)
    obtain ⟨value, hp, hdm, hfr⟩ := firing_eq htr
    obtain ⟨-, hfd, u, hst⟩ := hfn value hp hdm
    have hu : u = value := by
      rcases hst.single with h | h
      · exact (List.cons.inj (h.symm.trans hfd)).1
      · rw [hfd] at h
        cases h
    rw [hfr] at htr
    subst hu hnd
    exact hst.passed target htr v hv
  · intro node hnd
    rw [turn_processed] at hnd
    rcases (marked_apply _ anchor node).mp hnd with ⟨rfl, value, hdm⟩ | hol
    · by_cases hp : w.processed node = true
      · exact hd.marked node hp
      · exact (hfn value (by simpa using hp) hdm).1
    · exact hd.marked node hol

theorem Dominates.drain {f : Work ι κ}
    (hf : Inv targets s anchors (fun _ => False) f) (hdn : f.queue = [])
    (hn : KeepsNonempty f.domain s.domain) (fuel : ℕ) :
    ∀ {w : Work ι κ}, Dominates w f → Inv targets s anchors' (fun _ => False) w →
      Dominates (drain targets fuel w) f := by
  induction fuel with
  | zero => exact fun hd _ => hd
  | succ fuel ih =>
    intro w hd hw
    unfold DomainPropagation.drain
    split
    · exact hd
    · next anchor queue hq =>
      exact ih (hd.turn hanchors hw hf hdn hn hq) (hw.turn hq)

theorem dominates_run {fuel : ℕ} (fuel' : ℕ) (hd : (run targets fuel s anchors).queue = [])
    (hn : KeepsNonempty (run targets fuel s anchors).domain s.domain) :
    Dominates (run targets fuel' s anchors') (run targets fuel s anchors) := by
  have hf := inv_run targets fuel s anchors
  exact Dominates.drain hanchors hf hd hn fuel'
    ⟨fun _ _ h => hf.below.mem h, fun _ h => hf.kept _ h⟩ (Inv.start targets s anchors')

end

theorem run_eq_of_mem (hanchors : ∀ node, node ∈ anchors' ↔ node ∈ anchors) {fuel fuel' : ℕ}
    (hdn : (run targets fuel s anchors).queue = [])
    (hdn' : (run targets fuel' s anchors').queue = [])
    (hn : KeepsNonempty (run targets fuel s anchors).domain s.domain) :
    (run targets fuel' s anchors').toState = (run targets fuel s anchors).toState := by
  have hf := inv_run targets fuel s anchors
  have hw := inv_run targets fuel' s anchors'
  have hd := dominates_run (fun node h => (hanchors node).mp h) fuel' hdn hn
  have hn' : KeepsNonempty (run targets fuel' s anchors').domain s.domain := by
    intro node hnd
    obtain ⟨value, hv⟩ := exists_mem_of_ne_nil _ (hn node hnd)
    exact ne_nil_of_mem (hd.subset node value hv)
  have hd' := dominates_run (fun node h => (hanchors node).mpr h) fuel hdn' hn'
  have hdm : (run targets fuel' s anchors').domain = (run targets fuel s anchors).domain :=
    (hw.below.below_of_subset hf.below hd'.subset).antisymm
      (hf.below.below_of_subset hw.below hd.subset)
  have hp : (run targets fuel' s anchors').processed =
      (run targets fuel s anchors).processed := by
    funext node
    rw [Bool.eq_iff_iff]
    exact ⟨hd.marked node, hd'.marked node⟩
  show State.mk _ _ = State.mk _ _
  rw [hdm, hp]

end DomainPropagation
