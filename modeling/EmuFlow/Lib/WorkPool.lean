import EmuFlow.Lib.GuardedRuns

/-!
# Workers on numbered items

Workers take the items in turn, each the next one, and solve them; a worker that sees a failure or
finds no item returns. However the steps of the workers interleave, at the end all items are solved,
or there is a failure, which is that of an item.
-/

namespace WorkPool

open GuardedRuns
open Function (update update_of_ne update_self)

variable {ε β : Type} {workers : ℕ}

inductive Status where
  | idle
  /-- Has an item, and looks for a failure. -/
  | taken (item : ℕ)
  | solving (item : ℕ)
  | returned
  deriving DecidableEq

structure State (ε β : Type) (workers : ℕ) where
  next : ℕ := 0
  failure : Option ε := none
  results : ℕ → Option β := fun _ => none
  status : Fin workers → Status := fun _ => .idle

def Status.Has (item : ℕ) (status : Status) : Prop := status = .taken item ∨ status = .solving item

variable (solve : ℕ → Option (Except ε β)) (count : ℕ)

def State.set (s : State ε β workers) (worker : Fin workers) (status : Status) :
    State ε β workers :=
  { s with status := update s.status worker status }

/-- One step of a worker. A worker whose item has no solution never comes back. -/
def step (s : State ε β workers) (worker : Fin workers) : Option (State ε β workers) :=
  match s.status worker with
  | .idle =>
    some (({ s with next := s.next + 1 } : State ε β workers).set worker
      (if count ≤ s.next then .returned else .taken s.next))
  | .taken item => some (s.set worker (if s.failure.isSome then .returned else .solving item))
  | .solving item =>
    (solve item).map fun solved =>
      match solved with
      | .ok result =>
        ({ s with results := update s.results item (some result) } :
          State ε β workers).set worker .idle
      | .error failure =>
        ({ s with failure := some (s.failure.getD failure) } : State ε β workers).set worker
          .returned
  | .returned => none

abbrev Runs (s t : State ε β workers) : Prop := Run (step solve count) (fun _ _ => True) s t

def State.Done (s : State ε β workers) : Prop := ∀ worker, s.status worker = .returned

/-- Every item that was taken is solved or with a worker, unless there is a failure. -/
structure Inv (s : State ε β workers) : Prop where
  taken : ∀ item, item < s.next → item < count → s.failure = none →
    (s.results item).isSome ∨ ∃ worker, (s.status worker).Has item
  results : ∀ item result, s.results item = some result → solve item = some (.ok result)
  failed : ∀ e, s.failure = some e → ∃ item < count, solve item = some (.error e)
  items : ∀ worker item, (s.status worker).Has item → item < count
  returned : ∀ worker, s.status worker = .returned → count ≤ s.next ∨ s.failure ≠ none

variable {solve count} {s s' : State ε β workers} {worker : Fin workers}

theorem set_status_self (status : Status) : (s.set worker status).status worker = status :=
  update_self ..

theorem set_status_of_ne {other : Fin workers} (h : other ≠ worker) (status : Status) :
    (s.set worker status).status other = s.status other := update_of_ne h ..

section

variable {item i : ℕ}

@[simp] theorem has_idle : ¬ Status.idle.Has item := by simp [Status.Has]

@[simp] theorem has_returned : ¬ Status.returned.Has item := by simp [Status.Has]

@[simp] theorem has_taken : (Status.taken i).Has item ↔ i = item := by simp [Status.Has]

@[simp] theorem has_solving : (Status.solving i).Has item ↔ i = item := by simp [Status.Has]

theorem exists_other (hs : ¬ (s.status worker).Has item)
    (h : ∃ other, (s.status other).Has item) : ∃ other ≠ worker, (s.status other).Has item := by
  obtain ⟨other, ho⟩ := h
  exact ⟨other, fun heq => hs (heq ▸ ho), ho⟩

end

/-- A worker goes on with another status; the other workers keep theirs. -/
theorem Inv.set {t : State ε β workers} {status : Status} (h : Inv solve count s)
    (hs : t.status = s.status) (hn : s.next ≤ t.next) (hf : s.failure ≠ none → t.failure ≠ none)
    (ht : ∀ item < t.next, item < count → t.failure = none → (t.results item).isSome ∨
      status.Has item ∨ ∃ other ≠ worker, (s.status other).Has item)
    (hrs : ∀ item result, t.results item = some result → solve item = some (.ok result))
    (hfl : ∀ e, t.failure = some e → ∃ item < count, solve item = some (.error e))
    (hi : ∀ item, status.Has item → item < count)
    (hrt : status = .returned → count ≤ t.next ∨ t.failure ≠ none) :
    Inv solve count (t.set worker status) where
  taken item hit hc hnn := by
    refine (ht item hit hc hnn).imp_right fun hh => ?_
    rcases hh with hh | ⟨other, hne, ho⟩
    · exact ⟨worker, by rwa [set_status_self]⟩
    · exact ⟨other, by rwa [set_status_of_ne hne, hs]⟩
  results := hrs
  failed := hfl
  items other item hh := by
    by_cases ho : other = worker
    · rw [ho, set_status_self] at hh
      exact hi item hh
    · rw [set_status_of_ne ho, hs] at hh
      exact h.items other item hh
  returned other hr := by
    by_cases ho : other = worker
    · rw [ho, set_status_self] at hr
      exact hrt hr
    · rw [set_status_of_ne ho, hs] at hr
      exact (h.returned other hr).imp (fun hle => hle.trans hn) hf

/-- One step of a worker keeps the invariant. -/
theorem inv_step (h : Inv solve count s) (hsp : step solve count s worker = some s') :
    Inv solve count s' := by
  unfold step at hsp
  cases hst : s.status worker with
  | idle =>
    rw [hst] at hsp
    cases hsp
    refine h.set rfl (Nat.le_succ s.next) id (fun item hit hc hnn => ?_) h.results h.failed
      (fun item hh => ?_) fun hr => ?_
    · have hit : item < s.next + 1 := hit
      by_cases ho : item < s.next
      · exact (h.taken item ho hc hnn).imp_right fun hh => .inr (exists_other (by simp [hst]) hh)
      · obtain rfl : item = s.next := by omega
        refine .inr (.inl ?_)
        rw [if_neg (by omega)]
        exact has_taken.mpr rfl
    · split at hh
      · exact absurd hh has_returned
      · next hls =>
        obtain rfl := has_taken.mp hh
        omega
    · split at hr
      · next hle => exact .inl (hle.trans (Nat.le_succ s.next))
      · cases hr
  | taken item =>
    rw [hst] at hsp
    cases hsp
    have hit := h.items worker item (by simp [hst])
    refine h.set rfl le_rfl id (fun i hi hc hnn => ?_) h.results h.failed (fun i hh => ?_)
      fun hr => ?_
    · have hnn : s.failure = none := hnn
      refine (h.taken i hi hc hnn).imp_right fun hh => ?_
      by_cases heq : item = i
      · refine .inl ?_
        rw [hnn]
        exact has_solving.mpr heq
      · exact .inr (exists_other (by simpa [hst] using heq) hh)
    · split at hh
      · exact absurd hh has_returned
      · exact has_solving.mp hh ▸ hit
    · split at hr
      · next hsm => exact .inr (Option.isSome_iff_ne_none.mp hsm)
      · cases hr
  | solving item =>
    rw [hst] at hsp
    obtain ⟨solved, hsv, hsp⟩ := Option.map_eq_some_iff.mp hsp
    have hit := h.items worker item (by simp [hst])
    cases solved with
    | ok result =>
      subst hsp
      refine h.set rfl le_rfl id (fun i hi hc hnn => ?_) (fun i r hr => ?_) h.failed
        (fun i hh => absurd hh has_idle) fun hr => by cases hr
      · show (update s.results item (some result) i).isSome = true ∨ _
        by_cases heq : item = i
        · rw [heq, update_self]
          exact .inl rfl
        · rw [update_of_ne (Ne.symm heq)]
          exact (h.taken i hi hc hnn).imp_right fun hh =>
            .inr (exists_other (by simpa [hst] using heq) hh)
      · have hr : update s.results item (some result) i = some r := hr
        by_cases heq : i = item
        · rw [heq, update_self] at hr
          rw [heq, hsv, Option.some.inj hr]
        · rw [update_of_ne heq] at hr
          exact h.results i r hr
    | error failure =>
      subst hsp
      refine h.set rfl le_rfl (fun _ => Option.some_ne_none _) (fun _ _ _ hnn => by cases hnn)
        h.results (fun e he => ?_) (fun i hh => absurd hh has_returned)
        fun _ => .inr (Option.some_ne_none _)
      have he : some (s.failure.getD failure) = some e := he
      cases he
      cases hf : s.failure with
      | none => exact ⟨item, hit, hsv⟩
      | some e => exact h.failed e hf
  | returned =>
    rw [hst] at hsp
    cases hsp

theorem inv_of_run (h : Runs solve count ({} : State ε β workers) s) : Inv solve count s := by
  refine h.invariant (fun _ _ _ hin _ hs => inv_step hin hs)
    ⟨fun item hi => ?_, fun _ _ hrs => ?_, fun _ hf => ?_, fun _ _ hh => ?_,
      fun _ hr => ?_⟩
  · exact absurd hi (Nat.not_lt_zero item)
  · cases hrs
  · cases hf
  · rcases hh with hh | hh <;> cases hh
  · cases hr

/-- **A pool that is done has the error of a task, or all results.** -/
theorem outcome_of_run (hw : 0 < workers)
    (h : Runs solve count ({} : State ε β workers) s) (hd : s.Done) :
    (∃ e, s.failure = some e ∧ ∃ item < count, solve item = some (.error e)) ∨
      s.failure = none ∧ ∀ item < count, ∃ r, s.results item = some r ∧
        solve item = some (.ok r) := by
  have hin := inv_of_run h
  cases hf : s.failure with
  | some e => exact .inl ⟨e, rfl, hin.failed e hf⟩
  | none =>
    refine .inr ⟨rfl, fun item hi => ?_⟩
    have hn := (hin.returned ⟨0, hw⟩ (hd _)).resolve_right (not_not.mpr hf)
    rcases hin.taken item (by omega) hi hf with hs | ⟨worker, hh⟩
    · obtain ⟨r, hr⟩ := Option.isSome_iff_exists.mp hs
      exact ⟨r, hr, hin.results item r hr⟩
    · rw [hd worker] at hh
      rcases hh with hh | hh <;> cases hh

theorem exists_done_of_exec (solve : ℕ → Option (Except ε β)) (count : ℕ)
    (script : List (Fin workers))
    (h : ((exec (step solve count) (fun _ _ => True) {} script).any fun s =>
      decide (∀ worker, s.status worker = .returned)) = true) :
    ∃ s : State ε β workers, Runs solve count {} s ∧ s.Done := by
  cases hs : exec (step solve count) (fun _ _ => True) ({} : State ε β workers) script with
  | none =>
    rw [hs] at h
    cases h
  | some s =>
    rw [hs] at h
    have hd : ∀ worker, s.status worker = .returned := of_decide_eq_true h
    exact ⟨s, run_of_exec hs, hd⟩

end WorkPool
