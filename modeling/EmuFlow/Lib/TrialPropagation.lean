import EmuFlow.Lib.DomainPropagation

/-!
# Trying a value before it is taken

A trial propagates a value of one node over an overlay of the domains and stops at the first domain
it would empty. Up to there it runs in step with the propagation of the value itself.
-/

namespace DomainPropagation

open List
open Function (update update_of_ne update_self)

variable {ι κ : Type} [DecidableEq ι] [DecidableEq κ]

/-- The domains a trial has changed, the nodes it has propagated, and those it still has to. -/
structure Trial (ι κ : Type) where
  overlay : ι → Option (List κ)
  processed : ι → Bool
  queue : List ι

def Trial.view (s : State ι κ) (t : Trial ι κ) : State ι κ :=
  { domain := fun node => (t.overlay node).getD (s.domain node)
    processed := fun node => s.processed node || t.processed node }

/-- Filter one domain, `none` where nothing is left. -/
def trialNarrow (s : State ι κ) (t : Trial ι κ) (target : ι × (κ → Bool)) : Option (Trial ι κ) :=
  let filtered := ((t.view s).domain target.1).filter target.2
  if filtered = [] then none
  else if filtered = (t.view s).domain target.1 then some t
  else
    some
      { overlay := update t.overlay target.1 (some filtered)
        processed := t.processed
        queue :=
          if filtered.length = 1 ∧ s.processed target.1 = false ∧ t.processed target.1 = false ∧
              target.1 ∉ t.queue then
            t.queue ++ [target.1]
          else t.queue }

def trialMarked (s : State ι κ) (t : Trial ι κ) (anchor : ι) : ι → Bool :=
  match (t.view s).processed anchor, (t.view s).domain anchor with
  | false, [_] => update t.processed anchor true
  | _, _ => t.processed

def trialTurn (targets : Targets ι κ) (s : State ι κ) (t : Trial ι κ) (anchor : ι) :
    Option (Trial ι κ) :=
  (firing targets (t.view s) anchor).foldlM (trialNarrow s)
    { t with processed := trialMarked s t anchor }

/-- Whether a domain is emptied before the queue is worked off. -/
def trialDrain (targets : Targets ι κ) (s : State ι κ) : ℕ → Trial ι κ → Bool
  | 0, _ => false
  | fuel + 1, t =>
    match t.queue with
    | [] => false
    | anchor :: queue =>
      match trialTurn targets s { t with queue := queue } anchor with
      | none => true
      | some next => trialDrain targets s fuel next

def trial (targets : Targets ι κ) (fuel : ℕ) (s : State ι κ) (node : ι) (value : κ) : Bool :=
  trialDrain targets s fuel
    { overlay := update (fun _ => none) node (some [value])
      processed := fun _ => false
      queue := [node] }

def State.assign (s : State ι κ) (node : ι) (value : κ) : State ι κ :=
  { domain := update s.domain node [value]
    processed := update s.processed node false }

def reached (targets : Targets ι κ) : ℕ → Work ι κ → List ι
  | 0, _ => []
  | fuel + 1, w =>
    match w.queue with
    | [] => []
    | anchor :: queue =>
      (firing targets w.toState anchor).map Prod.fst ++
        reached targets fuel (turn targets { w with queue := queue } anchor)

/-! ## in step -/

structure Follows (s : State ι κ) (t : Trial ι κ) (w : Work ι κ) : Prop where
  domain_eq : w.domain = (t.view s).domain
  processed_eq : w.processed = (t.view s).processed
  queue_eq : w.queue = t.queue

variable {s : State ι κ} {w : Work ι κ}

/-- **One filter in step**: the trial stops where nothing is left. -/
theorem Follows.narrow {t : Trial ι κ} (h : Follows s t w) (target : ι × (κ → Bool)) :
    (trialNarrow s t target = none ∧ (narrow w target).domain target.1 = []) ∨
      ∃ t', trialNarrow s t target = some t' ∧ Follows s t' (narrow w target) ∧
        (narrow w target).domain target.1 ≠ [] := by
  have hd := narrow_domain w target target.1
  rw [if_pos rfl, h.domain_eq] at hd
  unfold trialNarrow
  dsimp only
  by_cases he : ((t.view s).domain target.1).filter target.2 = []
  · exact .inl ⟨if_pos he, hd.trans he⟩
  · right
    rw [if_neg he]
    by_cases hs : ((t.view s).domain target.1).filter target.2 = (t.view s).domain target.1
    · refine ⟨t, if_pos hs, ?_, by rwa [hd]⟩
      have hnr : DomainPropagation.narrow w target = w := by
        unfold DomainPropagation.narrow
        dsimp only
        rw [h.domain_eq, if_pos hs]
      rwa [hnr]
    · refine ⟨_, if_neg hs, ⟨?_, ?_, ?_⟩, by rwa [hd]⟩
      · funext node
        rw [narrow_domain, h.domain_eq]
        show _ = (update t.overlay target.1 _ node).getD (s.domain node)
        by_cases hn : node = target.1
        · rw [if_pos hn, hn, update_self]
          rfl
        · rw [if_neg hn, update_of_ne hn]
          rfl
      · rw [narrow_processed, h.processed_eq]
        rfl
      · have hp : w.processed target.1 = false ↔
            s.processed target.1 = false ∧ t.processed target.1 = false := by
          rw [h.processed_eq]
          exact Bool.or_eq_false_iff
        unfold DomainPropagation.narrow
        dsimp only
        rw [h.domain_eq, if_neg hs]
        show (if _ ∧ w.processed target.1 = false ∧ target.1 ∉ w.queue then _ else _) = _
        simp only [hp, h.queue_eq, and_assoc]

theorem Follows.foldl : ∀ (list : List (ι × (κ → Bool))) {t : Trial ι κ}
    {w : Work ι κ}, Follows s t w → (list.foldlM (trialNarrow s) t = none ∧
          ∃ target ∈ list, (list.foldl DomainPropagation.narrow w).domain target.1 = []) ∨
        ∃ t', list.foldlM (trialNarrow s) t = some t' ∧
          Follows s t' (list.foldl DomainPropagation.narrow w) ∧
          (∀ target ∈ list, (list.foldl DomainPropagation.narrow w).domain target.1 ≠ []) ∧
          KeepsNonempty (list.foldl DomainPropagation.narrow w).domain w.domain
  | [], t, w, h => .inr ⟨t, rfl, h, by simp, fun _ hnd => hnd⟩
  | target :: rest, t, w, h => by
    rw [foldlM_cons, foldl_cons]
    rcases h.narrow target with ⟨hn, he⟩ | ⟨t', hs, hfl, hnn⟩
    · left
      refine ⟨by rw [hn]; rfl, target, mem_cons_self, ?_⟩
      -- an emptied domain stays empty
      have hb := foldl_narrow_below rest (DomainPropagation.narrow w target)
      have hle := hb.length_le target.1
      rw [he, length_nil, Nat.le_zero, length_eq_zero_iff] at hle
      exact hle
    · rw [hs]
      have hkp : KeepsNonempty (DomainPropagation.narrow w target).domain w.domain := by
        intro node hnd
        rw [narrow_domain]
        split
        · next heq =>
          rw [narrow_domain, if_pos rfl] at hnn
          rwa [heq]
        · exact hnd
      rcases Follows.foldl rest hfl with ⟨hn, q, hq, he⟩ | ⟨u, hu, hf, ha, hk⟩
      · exact .inl ⟨hn, q, mem_cons_of_mem _ hq, he⟩
      · refine .inr ⟨u, hu, hf, fun q hq => ?_, fun node hnd => hk node (hkp node hnd)⟩
        rcases mem_cons.mp hq with rfl | hq
        · exact hk _ hnn
        · exact ha q hq

omit [DecidableEq κ] in
theorem Follows.mark {t : Trial ι κ} (h : Follows s t w) (anchor : ι) (queue : List ι) :
    Follows s { overlay := t.overlay, processed := trialMarked s t anchor, queue := queue }
      { w with queue := queue, processed := marked w.toState anchor } := by
  refine ⟨h.domain_eq, ?_, rfl⟩
  have hs : w.toState = t.view s := by
    show State.mk w.domain w.processed = _
    rw [h.domain_eq, h.processed_eq]
  funext node
  show marked w.toState anchor node = (s.processed node || trialMarked s t anchor node)
  rw [hs, Bool.eq_iff_iff, marked_apply, Bool.or_eq_true]
  unfold trialMarked
  have hv : (t.view s).processed node = true ↔
      s.processed node = true ∨ t.processed node = true := by simp [Trial.view]
  rw [hv]
  match hp : (t.view s).processed anchor, hd : (t.view s).domain anchor with
  | false, [value] =>
    dsimp only
    by_cases hn : node = anchor
    · rw [hn, update_self]
      simp
    · rw [update_of_ne hn]
      simp [hn]
  | true, _ =>
    -- a node that was propagated is marked already
    have ho : (t.view s).processed anchor = true ↔
        s.processed anchor = true ∨ t.processed anchor = true := by simp [Trial.view]
    constructor
    · rintro (⟨rfl, -⟩ | hor)
      · exact ho.mp hp
      · exact hor
    · exact .inr
  | false, [] => simp
  | false, _ :: _ :: _ => simp

theorem Follows.drain (targets : Targets ι κ) (fuel : ℕ) :
    ∀ {t : Trial ι κ} {w : Work ι κ}, Follows s t w → (trialDrain targets s fuel t = true ∧
          ∃ node ∈ reached targets fuel w, (drain targets fuel w).domain node = []) ∨
        trialDrain targets s fuel t = false ∧
          (∀ node ∈ reached targets fuel w, (drain targets fuel w).domain node ≠ []) ∧
          KeepsNonempty (drain targets fuel w).domain w.domain := by
  induction fuel with
  | zero => exact fun _ => .inr ⟨rfl, by simp [reached], fun _ hnd => hnd⟩
  | succ fuel ih =>
    intro t w h
    unfold trialDrain reached DomainPropagation.drain
    rw [h.queue_eq]
    cases hq : t.queue with
    | nil => exact .inr ⟨rfl, by simp, fun _ hnd => hnd⟩
    | cons anchor queue =>
      dsimp only
      have hs : w.toState = t.view s := by
        show State.mk w.domain w.processed = _
        rw [h.domain_eq, h.processed_eq]
      have htn : trialTurn targets s { t with queue := queue } anchor =
          (firing targets w.toState anchor).foldlM (trialNarrow s)
            { overlay := t.overlay, processed := trialMarked s t anchor, queue := queue } := by
        rw [hs]
        rfl
      have hw : turn targets { w with queue := queue } anchor =
          (firing targets w.toState anchor).foldl DomainPropagation.narrow
            { w with queue := queue, processed := marked w.toState anchor } := rfl
      rw [htn]
      rcases Follows.foldl (firing targets w.toState anchor) (h.mark anchor queue) with
        ⟨hn, target, htr, he⟩ | ⟨next, hsm, hf, ha, hkp⟩
      · left
        rw [hn]
        refine ⟨rfl, target.1, mem_append_left _ (mem_map_of_mem htr), ?_⟩
        rw [← hw] at he
        have hle := (drain_below targets fuel
          (turn targets { w with queue := queue } anchor)).length_le target.1
        rw [he, length_nil, Nat.le_zero, length_eq_zero_iff] at hle
        exact hle
      · rw [hsm]
        rw [← hw] at hf ha hkp
        rcases ih hf with ⟨ht, node, hnd, he⟩ | ⟨hfs, hr, hk⟩
        · exact .inl ⟨ht, node, mem_append_right _ hnd, he⟩
        · refine .inr ⟨hfs, fun node hnd => ?_, fun node hnd => hk node (hkp node hnd)⟩
          rcases List.mem_append.mp hnd with hnd | hnd
          · obtain ⟨target, htr, rfl⟩ := mem_map.mp hnd
            exact hk _ (ha target htr)
          · exact hr node hnd

variable {node : ι}

omit [DecidableEq κ] in
theorem follows_start (hn : s.processed node = false) (value : κ) : Follows s
      { overlay := update (fun _ => none) node (some [value])
        processed := fun _ => false
        queue := [node] }
      (start (s.assign node value) [node]) := by
  constructor
  · funext other
    show update s.domain node [value] other =
      (update (fun _ => none) node (some [value]) other).getD (s.domain other)
    by_cases ho : other = node
    · rw [ho, update_self, update_self]
      rfl
    · rw [update_of_ne ho, update_of_ne ho]
      rfl
  · funext other
    show update s.processed node false other = (s.processed other || false)
    by_cases ho : other = node
    · rw [ho, update_self, hn]
      rfl
    · rw [update_of_ne ho, Bool.or_false]
  · simp [start, enqueue, State.assign]

theorem trial_iff (targets : Targets ι κ) (fuel : ℕ) (hn : s.processed node = false) (value : κ) :
    trial targets fuel s node value = true ↔
      ∃ other ∈ reached targets fuel (start (s.assign node value) [node]),
        (run targets fuel (s.assign node value) [node]).domain other = [] := by
  rcases (follows_start hn value).drain targets fuel with ⟨ht, hex⟩ | ⟨hf, ha, -⟩
  · exact ⟨fun _ => hex, fun _ => ht⟩
  · constructor
    · intro ht
      rw [trial, hf] at ht
      cases ht
    · rintro ⟨other, ho, he⟩
      exact absurd he (ha other ho)

theorem keepsNonempty_of_trial {targets : Targets ι κ} {fuel : ℕ}
    (hn : s.processed node = false) {value : κ} (h : trial targets fuel s node value = false) :
    KeepsNonempty (run targets fuel (s.assign node value) [node]).domain
      (s.assign node value).domain := by
  rcases (follows_start hn value).drain targets fuel with ⟨ht, -⟩ | ⟨-, -, hk⟩
  · rw [trial, ht] at h
    cases h
  · exact hk

theorem trial_processed (targets : Targets ι κ) (fuel : ℕ)
    (ho : s.processed node = true) (value : κ) : trial targets fuel s node value = false := by
  unfold trial
  cases fuel with
  | zero => rfl
  | succ fuel =>
    have ht : trialTurn targets s
        { overlay := update (fun _ => none) node (some [value])
          processed := fun _ => false
          queue := [] } node =
        some { overlay := update (fun _ => none) node (some [value])
               processed := fun _ => false
               queue := [] } := by
      simp [trialTurn, firing, trialMarked, Trial.view, ho]
    unfold trialDrain
    dsimp only
    rw [ht]
    cases fuel <;> rfl

theorem foldl_narrow_of_passed : ∀ {list : List (ι × (κ → Bool))},
    (∀ target ∈ list, ∀ v ∈ w.domain target.1, target.2 v = true) → list.foldl narrow w = w
  | [], _ => rfl
  | target :: rest, h => by
    have hs : narrow w target = w := by
      unfold narrow
      dsimp only
      rw [if_pos (filter_eq_self.mpr (h target mem_cons_self))]
    rw [foldl_cons, hs]
    exact foldl_narrow_of_passed fun t ht => h t (mem_cons_of_mem _ ht)

theorem run_assign_settled {targets : Targets ι κ} {fuel : ℕ} (hf : 0 < fuel)
    {value : κ} (ho : s.processed node = true) (hd : s.domain node = [value])
    (hst : Settled targets s.domain node value) :
    (run targets fuel (s.assign node value) [node]).toState = s := by
  have hs : (s.assign node value).domain = s.domain := by
    show update s.domain node [value] = s.domain
    rw [← hd, Function.update_eq_self]
  have hq : (start (s.assign node value) [node]).queue = [node] := by
    simp [start, enqueue, State.assign]
  obtain ⟨fuel, rfl⟩ := Nat.exists_eq_succ_of_ne_zero hf.ne'
  have hfr : firing targets (s.assign node value) node = targets node value := by
    simp [firing, State.assign]
  have ht : turn targets { start (s.assign node value) [node] with queue := [] } node =
      { start (s.assign node value) [node] with
        queue := [], processed := marked (s.assign node value) node } := by
    show (firing targets (s.assign node value) node).foldl narrow _ = _
    rw [hfr]
    refine foldl_narrow_of_passed fun target htr v hv => ?_
    refine hst.passed target htr v ?_
    rw [← hs]
    exact hv
  have hm : marked (s.assign node value) node = s.processed := by
    funext other
    rw [Bool.eq_iff_iff, marked_apply]
    show (other = node ∧ ∃ v, update s.domain node [value] node = [v]) ∨
      update s.processed node false other = true ↔ s.processed other = true
    by_cases hot : other = node
    · rw [hot, update_self, update_self, ho]
      simp
    · rw [update_of_ne hot]
      simp [hot]
  have hdn : ∀ (fuel : ℕ) (w : Work ι κ), w.queue = [] → drain targets fuel w = w := by
    intro fuel w hw
    cases fuel with
    | zero => rfl
    | succ fuel => unfold drain; rw [hw]
  unfold run drain
  rw [hq]
  dsimp only
  rw [ht, hdn fuel _ rfl]
  show State.mk _ _ = s
  rw [hm]
  show State.mk (s.assign node value).domain _ = s
  rw [hs]

end DomainPropagation
