import EmuFlow.ValidationFarm.TaskSystem

/-!
# Safety of a validation farm task

Two SSH answers and two gaps between a check and a write decide whether a task has one worker and
keeps its result. Where a failed submission started no worker, a failed probe met no live worker,
a reconcile run finds the attempt it read still unfinished, and no heartbeat is being written
while the result is, a run of the step system is safe. Without any one of these it is not.
-/

namespace EmuFlow.ValidationFarm

open GuardedRuns List

def Meets (s : System) : Event → Prop
  -- a submission that fails has not started a worker
  | .sshReturn exitCode => exitCode ≠ 0 → s.launch = .connecting false
  -- a probe that fails has reached the node: no worker has the pid
  | .probe state exitCode => exitCode ≠ 0 → ∀ w ∈ s.workers, state.pid ≠ some w.pid
  -- the attempt read has not ended and no other has begun
  | .reconcileWrite state =>
    s.file.status ∈ [.running, .waiting_for_slot] ∧ s.file.attempt = state.attempt
  -- the heartbeat thread has been joined
  | .workerFinish pid _ => ∀ w ∈ s.workers, w.pid = pid → w.beating = none
  | _ => True

instance (s : System) : (e : Event) → Decidable (Meets s e)
  | .sshReturn _ => inferInstanceAs (Decidable (_ → _))
  | .probe _ _ => inferInstanceAs (Decidable (_ → _))
  | .reconcileWrite _ => inferInstanceAs (Decidable (_ ∧ _))
  | .workerFinish _ _ => inferInstanceAs (Decidable (∀ _ ∈ _, _ → _))
  | .launchBegin _ | .launchStep | .sshStart _ | .workerRead _ | .workerMkdir _
  | .workerWait _ _ | .workerRun _ _ | .workerDie _ | .beat _ _ | .beatWrite _
  | .reconcileRead _ => .isTrue trivial

/-! ## the invariant -/

/-- The state file, the attempt and the heartbeat of a live worker. -/
def WorkerInv (s : System) (w : Worker) : Prop :=
  match w.stage with
  | .starting | .read _ => s.file.status = .submitting ∧ w.beating = none
  | .made attempt => s.file.status = .submitting ∧ w.beating = none ∧ attempt ∈ s.attempts
  | .waiting attempt => s.file.status = .waiting_for_slot ∧ s.file.attempt = some attempt ∧
      s.file.pid = some w.pid ∧ w.beating = none
  | .running attempt => s.file.status = .running ∧ s.file.attempt = some attempt ∧
      s.file.pid = some w.pid
  | .finished _ => s.file.status ∈ [.pass, .failed] ∧ w.beating = none

/-- What the launch has read still stands, and before SSH starts a worker there is none. -/
def LaunchInv (s : System) : Prop :=
  match s.launch with
  | .blocking => s.file.status ∈ [.prepared, .submit_failed, .blocked_storage]
  | .resetting => s.file.status = .blocked_storage
  | .claiming _ | .claimed _ => s.file.status ∈ [.prepared, .submit_failed, .retryable]
  | .connecting false | .sshFailed => s.file.status = .submitting ∧ s.workers = []
  | _ => True

/-- The launch is about to write the state file, or to start the worker. -/
def Launch.Pending : Launch → Prop
  | .blocking | .resetting | .claiming _ | .claimed _ | .connecting false | .sshFailed => True
  | _ => False

/-- The attempt a reconcile run read has a directory; its worker has the pid that was read, and is
dead once the probe has failed. -/
def ReconcileInv (s : System) : Reconcile → Prop
  | .probing state => ∃ attempt ∈ s.attempts, state.attempt = some attempt ∧
      ∀ w ∈ s.workers, w.stage.attempt = some attempt → state.pid = some w.pid
  | .absent state => ∃ attempt ∈ s.attempts, state.attempt = some attempt ∧
      ∀ w ∈ s.workers, w.stage.attempt ≠ some attempt

structure Inv (s : System) : Prop where
  one : s.workers.length ≤ 1
  worker : ∀ w ∈ s.workers, WorkerInv s w
  /-- The attempt of an unfinished state file has a directory. -/
  unfinished : s.file.status ∈ [.running, .waiting_for_slot] →
    ∃ attempt ∈ s.attempts, s.file.attempt = some attempt
  launch : LaunchInv s
  reconcile : ∀ r ∈ s.reconciles, ReconcileInv s r

theorem inv_initial : Inv .initial where
  one := Nat.zero_le 1
  worker := fun _ hw => absurd hw not_mem_nil
  unfinished := fun h => absurd h (by decide)
  launch := trivial
  reconcile := fun _ hr => absurd hr not_mem_nil

/-! ## what the invariant says -/

variable {s s' : System} {w : Worker}

theorem Inv.workers_eq (h : Inv s) (hw : w ∈ s.workers) : s.workers = [w] := by
  have ho := h.one
  match hs : s.workers with
  | [] => rw [hs] at hw; cases hw
  | [v] =>
    rw [hs] at hw
    rw [mem_singleton.mp hw]
  | _ :: _ :: _ => rw [hs] at ho; simp at ho

theorem Inv.status_of_worker (h : Inv s) (hw : w ∈ s.workers) : s.file.status ∈
    [.submitting, .waiting_for_slot, .running, .pass, .failed] := by
  have hi := h.worker w hw
  unfold WorkerInv at hi
  cases hst : w.stage with
  | starting => simp [hst] at hi; simp [hi]
  | read attempt => simp [hst] at hi; simp [hi]
  | made attempt => simp [hst] at hi; simp [hi]
  | waiting attempt => simp [hst] at hi; simp [hi]
  | running attempt => simp [hst] at hi; simp [hi]
  | finished attempt =>
    simp [hst] at hi
    rcases hi.1 with hs | hs <;> simp [hs]

theorem Inv.workers_eq_nil (h : Inv s) (hs : s.file.status ∈
    [.prepared, .blocked_storage, .submit_failed, .retryable]) : s.workers = [] := by
  rw [eq_nil_iff_forall_not_mem]
  intro w hw
  have hst := h.status_of_worker hw
  simp at hs hst
  rcases hs with hs | hs | hs | hs <;> simp [hs] at hst

theorem Inv.attempt_of_unfinished (h : Inv s)
    (hs : s.file.status ∈ [.running, .waiting_for_slot]) (hw : w ∈ s.workers) :
    w.stage.attempt = s.file.attempt ∧ s.file.pid = some w.pid := by
  have hi := h.worker w hw
  unfold WorkerInv at hi
  simp at hs
  cases hst : w.stage with
  | starting => simp [hst] at hi; simp [hi] at hs
  | read attempt => simp [hst] at hi; simp [hi] at hs
  | made attempt => simp [hst] at hi; simp [hi] at hs
  | waiting attempt => simp [hst] at hi; simp [hi, Stage.attempt]
  | running attempt => simp [hst] at hi; simp [hi, Stage.attempt]
  | finished attempt =>
    simp [hst] at hi
    rcases hi.1 with heq | heq <;> simp [heq] at hs

/-- A launch that is about to write acts alone: there is no worker, and no result to overwrite. -/
theorem Inv.of_pending (h : Inv s) (hl : s.launch.Pending) : s.workers = [] ∧
    s.file.status ∉ [.waiting_for_slot, .running, .pass, .failed] := by
  have hi := h.launch
  unfold LaunchInv at hi
  cases hln : s.launch with
  | blocking =>
    simp [hln] at hi
    refine ⟨h.workers_eq_nil ?_, ?_⟩ <;> rcases hi with hs | hs | hs <;> simp [hs]
  | resetting =>
    simp [hln] at hi
    exact ⟨h.workers_eq_nil (by simp [hi]), by simp [hi]⟩
  | claiming previous | claimed previous =>
    simp [hln] at hi
    refine ⟨h.workers_eq_nil ?_, ?_⟩ <;> rcases hi with hs | hs | hs <;> simp [hs]
  | connecting started =>
    cases started with
    | false =>
      simp [hln] at hi
      exact ⟨hi.2, by simp [hi.1]⟩
    | true => simp [hln, Launch.Pending] at hl
  | sshFailed =>
    simp [hln] at hi
    exact ⟨hi.2, by simp [hi.1]⟩
  | _ => simp [hln, Launch.Pending] at hl

theorem launchInv_of_not_pending (hl : ¬ s.launch.Pending) : LaunchInv s := by
  unfold LaunchInv
  cases hln : s.launch with
  | connecting started =>
    cases started with
    | false => simp [hln, Launch.Pending] at hl
    | true => trivial
  | idle | storageFailed | storagePassed | reading | unclaiming => trivial
  | _ => simp [hln, Launch.Pending] at hl

theorem ReconcileInv.mono {r : Reconcile} (h : ReconcileInv s r)
    (hat : ∀ a ∈ s.attempts, a ∈ s'.attempts)
    (hwr : ∀ v ∈ s'.workers, ∀ a ∈ s.attempts, v.stage.attempt = some a →
      ∃ w ∈ s.workers, w.pid = v.pid ∧ w.stage.attempt = some a) : ReconcileInv s' r := by
  cases r with
  | probing state =>
    obtain ⟨a, ha, hs, hp⟩ := h
    refine ⟨a, hat a ha, hs, fun v hv hva => ?_⟩
    obtain ⟨w, hw, hwv, hwa⟩ := hwr v hv a ha hva
    rw [← hwv]
    exact hp w hw hwa
  | absent state =>
    obtain ⟨a, ha, hs, hn⟩ := h
    refine ⟨a, hat a ha, hs, fun v hv hva => ?_⟩
    obtain ⟨w, hw, -, hwa⟩ := hwr v hv a ha hva
    exact hn w hw hwa

section

variable (h : Inv s) (hw : w ∈ s.workers)
include h hw

theorem Inv.launchInv_of_worker (hl : s'.launch = s.launch) : LaunchInv s' := by
  refine launchInv_of_not_pending fun hp => ?_
  rw [hl] at hp
  exact ne_nil_of_mem hw (h.of_pending hp).1

theorem Inv.setWorker_workers {v : Worker}
    (hp : w.pid = v.pid) : (s.setWorker v).workers = [v] := by
  simp [System.setWorker, h.workers_eq hw, hp]

theorem Inv.of_worker (v : Worker) (hp : w.pid = v.pid)
    (hs : s'.workers = (s.setWorker v).workers) (hl : s'.launch = s.launch)
    (hrc : s'.reconciles = s.reconciles) (hat : ∀ a ∈ s.attempts, a ∈ s'.attempts)
    (hk : ∀ a ∈ s.attempts, v.stage.attempt = some a → w.stage.attempt = some a)
    (hv : WorkerInv s' v) (hun : s'.file.status ∈ [.running, .waiting_for_slot] →
      ∃ a ∈ s'.attempts, s'.file.attempt = some a) : Inv s' := by
  have hwr : s'.workers = [v] := hs.trans (h.setWorker_workers hw hp)
  constructor
  · simp [hwr]
  · simpa [hwr] using hv
  · exact hun
  · exact h.launchInv_of_worker hw hl
  · intro r hr
    rw [hrc] at hr
    refine (h.reconcile r hr).mono hat fun u hu a ha hua => ?_
    rw [hwr, mem_singleton] at hu
    subst hu
    exact ⟨w, hw, hp, hk a ha hua⟩

theorem Inv.removeWorker : Inv (s.removeWorker w.pid) := by
  have hnl : (s.removeWorker w.pid).workers = [] := by
    simp [System.removeWorker, h.workers_eq hw]
  constructor
  · simp [hnl]
  · simp [hnl]
  · exact h.unfinished
  · exact h.launchInv_of_worker hw rfl
  · intro r hr
    exact (h.reconcile r hr).mono (fun _ ha => ha) (by simp [hnl])

end

/-! ## the steps of a worker -/

def Event.OfWorker : Event → Prop
  | .workerRead _ | .workerMkdir _ | .workerWait _ _ | .workerRun _ _ | .workerFinish _ _
  | .workerDie _ | .beat _ _ | .beatWrite _ => True
  | _ => False

/-- What a step of a live worker does: the worker is gone, or goes on. -/
inductive WorkerStep (s : System) (w : Worker) : Event → System → Prop where
  | gone {e : Event} : WorkerStep s w e (s.removeWorker w.pid)
  | read {e : Event} (hsg : w.stage = .starting) : WorkerStep s w e
      (s.setWorker { w with stage := .read (s.file.attempt.getD 0 + 1) })
  | made {e : Event} {attempt : Int} (hsg : w.stage = .read attempt) (hn : attempt ∉ s.attempts) :
      WorkerStep s w e { s.setWorker { w with stage := .made attempt } with
        attempts := attempt :: s.attempts }
  | waiting {e : Event} {attempt : Int} (hsg : w.stage = .made attempt) (lease : Option Int) :
      WorkerStep s w e { s.setWorker { w with stage := .waiting attempt } with
        file := ⟨.waiting_for_slot, some attempt, some w.pid, lease⟩ }
  | running {e : Event} {attempt : Int} (hsg : w.stage = .waiting attempt) (lease : Option Int) :
      WorkerStep s w e { s.setWorker { w with stage := .running attempt } with
        file := ⟨.running, some attempt, some w.pid, lease⟩ }
  | finished {attempt exitCode : Int} (hsg : w.stage = .running attempt) :
      WorkerStep s w (.workerFinish w.pid exitCode)
        { s.setWorker { w with stage := .finished attempt } with
          file := ⟨if exitCode = 0 then .pass else .failed, some attempt, some w.pid, none⟩ }
  | beat {e : Event} {attempt : Int} (hsg : w.stage = .running attempt) (lease : Int) :
      WorkerStep s w e (s.setWorker { w with beating := some lease })
  | beatWrite {e : Event} {lease : Int} (hb : w.beating = some lease) : WorkerStep s w e
      { s.setWorker { w with beating := none } with
        file := ⟨.running, w.stage.attempt, some w.pid, some lease⟩ }

theorem bind_findWorker {pid : Nat} {f : Worker → Option System}
    (h : (s.findWorker pid).bind f = some s') : ∃ w ∈ s.workers, w.pid = pid ∧ f w = some s' := by
  obtain ⟨w, hw, hf⟩ := Option.bind_eq_some_iff.mp h
  exact ⟨w, Keyed.mem_of_find hw, Keyed.key_of_find hw, hf⟩

variable {leaseSeconds : Int} {e : Event}

theorem workerStep_of_step (he : e.OfWorker) (hs : step leaseSeconds s e = some s') :
    ∃ w ∈ s.workers, WorkerStep s w e s' := by
  cases e with
  | workerRead pid =>
    obtain ⟨w, hw, -, hs⟩ := bind_findWorker hs
    unfold workerRead at hs
    split at hs
    · next hsg =>
      split at hs <;> cases hs
      · exact ⟨w, hw, .gone⟩
      · exact ⟨w, hw, .read hsg⟩
    · cases hs
  | workerMkdir pid =>
    obtain ⟨w, hw, -, hs⟩ := bind_findWorker hs
    unfold workerMkdir at hs
    split at hs
    · next hsg =>
      split at hs
      · cases hs
        exact ⟨w, hw, .gone⟩
      · next hn =>
        cases hs
        exact ⟨w, hw, .made hsg hn⟩
    · cases hs
  | workerWait pid now =>
    obtain ⟨w, hw, -, hs⟩ := bind_findWorker hs
    unfold workerWait at hs
    split at hs
    · next hsg =>
      cases hs
      exact ⟨w, hw, .waiting hsg _⟩
    · cases hs
  | workerRun pid now =>
    obtain ⟨w, hw, -, hs⟩ := bind_findWorker hs
    unfold workerRun at hs
    split at hs
    · next hsg =>
      cases hs
      exact ⟨w, hw, .running hsg _⟩
    · cases hs
  | workerFinish pid exitCode =>
    obtain ⟨w, hw, hp, hf⟩ := bind_findWorker hs
    subst hp
    unfold workerFinish at hf
    split at hf
    · next hsg =>
      cases hf
      exact ⟨w, hw, .finished hsg⟩
    · cases hf
  | workerDie pid =>
    obtain ⟨w, hw, -, hs⟩ := bind_findWorker hs
    cases hs
    exact ⟨w, hw, .gone⟩
  | beat pid now =>
    obtain ⟨w, hw, -, hs⟩ := bind_findWorker hs
    unfold beat at hs
    split at hs
    · next hsg _ =>
      cases hs
      exact ⟨w, hw, .beat hsg _⟩
    · cases hs
  | beatWrite pid =>
    obtain ⟨w, hw, -, hs⟩ := bind_findWorker hs
    unfold beatWrite at hs
    split at hs
    · next hb =>
      cases hs
      exact ⟨w, hw, .beatWrite hb⟩
    · cases hs
  | _ => exact he.elim

/-- The other actors take away neither a live worker nor a directory; the state file is written by
a launch that is about to, and by a reconcile run. -/
theorem of_step (he : ¬ e.OfWorker) (hs : step leaseSeconds s e = some s') :
    (∃ pid ∉ s.workers.map Worker.pid, s.launch = .connecting false ∧
      s' = { s with launch := .connecting true, workers := { pid := pid } :: s.workers }) ∨
    s'.workers = s.workers ∧ s'.attempts = s.attempts ∧
      (s'.file = s.file ∨ s.launch.Pending ∨ ∃ state, e = .reconcileWrite state) := by
  cases e with
  | launchBegin storagePass =>
    obtain ⟨-, hs⟩ := Option.ite_none_right_eq_some.mp hs
    cases hs
    exact .inr ⟨rfl, rfl, .inl rfl⟩
  | launchStep =>
    simp only [step, launchStep] at hs
    cases hl : s.launch with
    | idle => simp [hl] at hs
    | connecting started => simp [hl] at hs
    | storageFailed | storagePassed | reading | claiming previous =>
      simp only [hl] at hs
      split at hs <;> cases hs <;> exact .inr ⟨rfl, rfl, .inl rfl⟩
    | unclaiming =>
      simp only [hl] at hs
      cases hs
      exact .inr ⟨rfl, rfl, .inl rfl⟩
    | _ =>
      simp only [hl] at hs
      cases hs
      exact .inr ⟨rfl, rfl, .inr (.inl trivial)⟩
  | sshStart pid =>
    obtain ⟨⟨hl, hp⟩, hs⟩ := Option.ite_none_right_eq_some.mp hs
    cases hs
    exact .inl ⟨pid, hp, hl, rfl⟩
  | sshReturn exitCode =>
    simp only [step, sshReturn] at hs
    split at hs
    · split_ifs at hs <;> cases hs <;> exact .inr ⟨rfl, rfl, .inl rfl⟩
    · cases hs
  | reconcileRead now =>
    simp only [step, reconcileRead] at hs
    split at hs
    · split at hs
      · split_ifs at hs <;> cases hs <;> exact .inr ⟨rfl, rfl, .inl rfl⟩
      · cases hs
        exact .inr ⟨rfl, rfl, .inl rfl⟩
    · cases hs
      exact .inr ⟨rfl, rfl, .inl rfl⟩
  | probe state exitCode =>
    simp only [step, probe] at hs
    split_ifs at hs <;> cases hs <;> exact .inr ⟨rfl, rfl, .inl rfl⟩
  | reconcileWrite state =>
    obtain ⟨-, hs⟩ := Option.ite_none_right_eq_some.mp hs
    cases hs
    exact .inr ⟨rfl, rfl, .inr (.inr ⟨state, rfl⟩)⟩
  | _ => exact absurd trivial he

theorem inv_workerStep (h : Inv s) (hw : w ∈ s.workers) (hm : Meets s e)
    (hs : WorkerStep s w e s') : Inv s' := by
  have hi := h.worker w hw
  unfold WorkerInv at hi
  cases hs with
  | gone => exact h.removeWorker hw
  | read hsg =>
    rw [hsg] at hi
    exact h.of_worker hw ⟨w.pid, .read _, w.beating⟩ rfl rfl rfl rfl (fun _ ha => ha)
      (by simp [Stage.attempt]) hi h.unfinished
  | made hsg hn =>
    rw [hsg] at hi
    refine h.of_worker hw ⟨w.pid, .made _, w.beating⟩ rfl rfl rfl rfl
      (fun _ ha => mem_cons_of_mem _ ha) ?_ ⟨hi.1, hi.2, mem_cons_self⟩ ?_
    · intro a ha hat
      cases hat
      exact absurd ha hn
    · intro hs
      obtain ⟨a, ha, hat⟩ := h.unfinished hs
      exact ⟨a, mem_cons_of_mem _ ha, hat⟩
  | waiting hsg lease =>
    rw [hsg] at hi
    exact h.of_worker hw ⟨w.pid, .waiting _, w.beating⟩ rfl rfl rfl rfl (fun _ ha => ha)
      (by simp [hsg, Stage.attempt]) ⟨rfl, rfl, rfl, hi.2.1⟩ fun _ => ⟨_, hi.2.2, rfl⟩
  | running hsg lease =>
    rw [hsg] at hi
    obtain ⟨a, ha, hat⟩ := h.unfinished (by simp [hi.1])
    refine h.of_worker hw ⟨w.pid, .running _, w.beating⟩ rfl rfl rfl rfl (fun _ ha => ha)
      (by simp [hsg, Stage.attempt]) ⟨rfl, rfl, rfl⟩ fun _ => ⟨a, ha, ?_⟩
    rw [← hat, hi.2.1]
  | @finished attempt exitCode hsg =>
    -- no heartbeat is being written
    refine h.of_worker hw ⟨w.pid, .finished attempt, w.beating⟩ rfl rfl rfl rfl (fun _ ha => ha)
      (by simp [hsg, Stage.attempt]) ⟨?_, hm w hw rfl⟩ ?_
    · by_cases he : exitCode = 0 <;> simp [he]
    · by_cases he : exitCode = 0 <;> simp [he]
  | beat hsg lease =>
    exact h.of_worker hw ⟨w.pid, w.stage, some lease⟩ rfl rfl rfl rfl (fun _ ha => ha)
      (fun _ _ => id) (by simp only [WorkerInv, hsg] at hi ⊢; exact hi) h.unfinished
  | beatWrite hb =>
    obtain ⟨attempt, hsg⟩ : ∃ attempt, w.stage = .running attempt := by
      cases hsg : w.stage with
      | running attempt => exact ⟨attempt, rfl⟩
      | _ => simp [hsg, hb] at hi
    rw [hsg] at hi
    obtain ⟨a, ha, hat⟩ := h.unfinished (by simp [hi.1])
    refine h.of_worker hw ⟨w.pid, w.stage, none⟩ rfl rfl rfl rfl (fun _ ha => ha) (fun _ _ => id)
      ?_ fun _ => ⟨a, ha, ?_⟩
    · simp [WorkerInv, hsg, Stage.attempt]
    · rw [← hat, hi.2.1]
      simp [hsg, Stage.attempt]

/-! ## the steps of a launch -/

theorem WorkerInv.congr (h : WorkerInv s w) (hf : s'.file = s.file)
    (ha : s'.attempts = s.attempts) : WorkerInv s' w := by
  unfold WorkerInv at h ⊢
  rw [hf, ha]
  exact h

theorem Inv.of_file_eq (h : Inv s) (hf : s'.file = s.file)
    (ha : s'.attempts = s.attempts) (hwr : s'.workers = s.workers)
    (hl : LaunchInv s') (hr : ∀ r ∈ s'.reconciles, ReconcileInv s' r) : Inv s' where
  one := by rw [hwr]; exact h.one
  worker := by
    rw [hwr]
    exact fun w hw => (h.worker w hw).congr hf ha
  unfinished := by
    rw [hf, ha]
    exact h.unfinished
  launch := hl
  reconcile := hr

theorem Inv.reconcileInv_of_eq (h : Inv s) (hat : s'.attempts = s.attempts)
    (hwr : s'.workers = s.workers) {r : Reconcile} (hr : r ∈ s.reconciles) :
    ReconcileInv s' r := by
  refine (h.reconcile r hr).mono (fun a ha => hat ▸ ha) fun v hv a _ hva => ?_
  exact ⟨v, hwr ▸ hv, rfl, hva⟩

theorem Inv.of_write (h : Inv s) (hnl : s.workers = []) (hwr : s'.workers = s.workers)
    (ha : s'.attempts = s.attempts) (hrc : ∀ r ∈ s'.reconciles, r ∈ s.reconciles)
    (hst : s'.file.status ∉ [.running, .waiting_for_slot]) (hl : LaunchInv s') :
    Inv s' where
  one := by simp [hwr, hnl]
  worker := by simp [hwr, hnl]
  unfinished := fun hs => absurd hs hst
  launch := hl
  reconcile := fun r hr => h.reconcileInv_of_eq ha hwr (hrc r hr)

theorem inv_launchStep (h : Inv s) (hst : launchStep s = some s') : Inv s' := by
  have hq : ∀ launch, LaunchInv { s with launch := launch } →
      Inv { s with launch := launch } := fun launch hl =>
    h.of_file_eq rfl rfl rfl hl fun r hr => h.reconcileInv_of_eq rfl rfl hr
  have hi := h.launch
  unfold launchStep at hst
  unfold LaunchInv at hi
  cases hln : s.launch with
  | idle => simp [hln] at hst
  | connecting started => simp [hln] at hst
  | storageFailed =>
    simp only [hln] at hst
    split at hst
    · next hs =>
      cases hst
      exact hq .blocking hs
    · cases hst
      exact hq .idle trivial
  | storagePassed =>
    simp only [hln] at hst
    split at hst
    · next hs =>
      cases hst
      exact hq .resetting hs
    · cases hst
      exact hq .reading trivial
  | reading =>
    simp only [hln] at hst
    split at hst
    · next hs =>
      cases hst
      exact hq (.claiming s.file) hs
    · cases hst
      exact hq .idle trivial
  | claiming previous =>
    simp only [hln] at hst hi
    split at hst
    · cases hst
      exact hq .idle trivial
    · cases hst
      exact h.of_file_eq rfl rfl rfl hi fun r hr => h.reconcileInv_of_eq rfl rfl hr
  | unclaiming =>
    simp only [hln] at hst
    cases hst
    exact h.of_file_eq rfl rfl rfl trivial fun r hr => h.reconcileInv_of_eq rfl rfl hr
  | _ =>
    -- the four writes, each without a live worker
    have hnl := (h.of_pending (by simp [hln, Launch.Pending])).1
    simp only [hln] at hst
    cases hst
    refine h.of_write hnl rfl rfl (fun _ hr => hr) (by simp) ?_
    first
      | exact trivial
      | exact ⟨rfl, hnl⟩

theorem inv_sshStart (h : Inv s) (hl : s.launch = .connecting false) (pid : Nat) :
    Inv { s with launch := .connecting true, workers := { pid := pid } :: s.workers } := by
  have hi := h.launch
  simp only [LaunchInv, hl] at hi
  obtain ⟨hs, hnl⟩ := hi
  constructor
  · simp [hnl]
  · simp [hnl, WorkerInv, hs]
  · exact h.unfinished
  · exact trivial
  · intro r hr
    refine (h.reconcile r hr).mono (fun _ ha => ha) fun v hv a _ hva => ?_
    simp only [hnl, mem_singleton] at hv
    rw [hv] at hva
    cases hva

theorem inv_sshReturn (h : Inv s) (hm : Meets s (.sshReturn exitCode))
    (hs : sshReturn s exitCode = some s') : Inv s' := by
  unfold sshReturn at hs
  split at hs
  · split at hs
    · next he =>
      -- a failed submission has started no worker
      cases hs
      have hi := h.launch
      simp only [LaunchInv, hm he] at hi
      exact h.of_file_eq rfl rfl rfl hi fun r hr => h.reconcileInv_of_eq rfl rfl hr
    · split at hs
      · cases hs
        exact h.of_file_eq rfl rfl rfl trivial fun r hr => h.reconcileInv_of_eq rfl rfl hr
      · cases hs
  · cases hs

theorem inv_reconcileRead {now : Int} (h : Inv s) (hst : reconcileRead s now = some s') :
    Inv s' := by
  unfold reconcileRead at hst
  split at hst
  · next hs =>
    split at hst
    · split at hst
      · cases hst
        exact h
      · cases hst
        refine h.of_file_eq rfl rfl rfl h.launch fun r hr => ?_
        rcases mem_cons.mp hr with rfl | hr
        · obtain ⟨a, ha, hat⟩ := h.unfinished hs
          exact ⟨a, ha, hat, fun w hw _ => (h.attempt_of_unfinished hs hw).2⟩
        · exact h.reconcileInv_of_eq rfl rfl hr
    · cases hst
      exact h
  · cases hst
    exact h

theorem inv_probe {state : StateFile} (h : Inv s)
    (hm : Meets s (.probe state exitCode)) (hs : probe s state exitCode = some s') :
    Inv s' := by
  unfold probe at hs
  split at hs
  · next hmm =>
    split at hs
    · cases hs
      exact h.of_file_eq rfl rfl rfl h.launch fun r hr =>
        h.reconcileInv_of_eq rfl rfl (mem_of_mem_erase hr)
    · next he =>
      cases hs
      refine h.of_file_eq rfl rfl rfl h.launch fun r hr => ?_
      rcases mem_cons.mp hr with rfl | hr
      · obtain ⟨a, ha, hat, hp⟩ := h.reconcile _ hmm
        exact ⟨a, ha, hat, fun w hw hwa => hm he w hw (hp w hw hwa)⟩
      · exact h.reconcileInv_of_eq rfl rfl (mem_of_mem_erase hr)
  · cases hs

theorem inv_reconcileWrite {state : StateFile} (h : Inv s)
    (hm : Meets s (.reconcileWrite state)) (hst : reconcileWrite s state = some s') :
    Inv s' := by
  unfold reconcileWrite at hst
  split at hst
  · next hmm =>
    cases hst
    obtain ⟨hs, hsm⟩ := hm
    obtain ⟨a, -, ha, hd⟩ := h.reconcile _ hmm
    have hnl : s.workers = [] := by
      rw [eq_nil_iff_forall_not_mem]
      intro w hw
      refine hd w hw ?_
      rw [(h.attempt_of_unfinished hs hw).1, hsm, ha]
    refine h.of_write hnl rfl rfl (fun _ hr => mem_of_mem_erase hr) (by simp) ?_
    refine launchInv_of_not_pending fun hp => (h.of_pending hp).2 ?_
    simp at hs ⊢
    rcases hs with hs | hs <;> simp [hs]
  · cases hst

/-! ## the safety of a run -/

theorem inv_step {leaseSeconds : Int} (s : System) (e : Event) (s' : System) (h : Inv s)
    (hm : Meets s e) (hs : step leaseSeconds s e = some s') : Inv s' := by
  by_cases he : e.OfWorker
  · obtain ⟨w, hw, hs⟩ := workerStep_of_step he hs
    exact inv_workerStep h hw hm hs
  cases e with
  | launchBegin storagePass =>
    simp only [step] at hs
    split at hs
    · cases hs
      refine h.of_file_eq rfl rfl rfl ?_ fun r hr => h.reconcileInv_of_eq rfl rfl hr
      cases storagePass <;> trivial
    · cases hs
  | launchStep => exact inv_launchStep h hs
  | sshStart pid =>
    simp only [step] at hs
    split at hs
    · next hl =>
      cases hs
      exact inv_sshStart h hl.1 pid
    · cases hs
  | sshReturn exitCode => exact inv_sshReturn h hm hs
  | reconcileRead now => exact inv_reconcileRead h hs
  | probe state exitCode => exact inv_probe h hm hs
  | reconcileWrite state => exact inv_reconcileWrite h hm hs
  | _ => exact absurd trivial he

def StateFile.HasResult (file : StateFile) : Prop := file.status = .pass ∨ file.status = .failed

theorem Inv.stage_of_hasResult (h : Inv s) (hr : s.file.HasResult) (hw : w ∈ s.workers) :
    (∃ a, w.stage = .finished a) ∧ w.beating = none := by
  have hi := h.worker w hw
  unfold WorkerInv at hi
  cases hst : w.stage with
  | finished a =>
    simp only [hst] at hi
    exact ⟨⟨a, rfl⟩, hi.2⟩
  | _ => rcases hr with hs | hs <;> simp [hst, hs] at hi

theorem file_step {leaseSeconds : Int} (s : System) (e : Event) (s' : System) (h : Inv s)
    (hr : s.file.HasResult) (hm : Meets s e) (hst : step leaseSeconds s e = some s') :
    s'.file = s.file := by
  by_cases he : e.OfWorker
  · obtain ⟨w, hw, hst⟩ := workerStep_of_step he hst
    obtain ⟨⟨a, ha⟩, hb⟩ := h.stage_of_hasResult hr hw
    cases hst with
    | gone => rfl
    | beatWrite hb' => rw [hb] at hb'; cases hb'
    | read hsg | made hsg | waiting hsg | running hsg | finished hsg | beat hsg =>
      rw [ha] at hsg
      cases hsg
  · rcases of_step he hst with ⟨pid, -, -, rfl⟩ | ⟨-, -, hf | hp | ⟨state, rfl⟩⟩
    · rfl
    · exact hf
    · have hn := (h.of_pending hp).2
      rcases hr with hs | hs <;> simp [hs] at hn
    · obtain ⟨hm, -⟩ := hm
      rcases hr with hs | hs <;> simp [hs] at hm

/-- **One worker and lasting results**: along every run whose steps meet the conditions the task
has at most one live worker, and a result, once written, stays. -/
theorem farmTask_safe {leaseSeconds : Int} {s : System}
    (hrun : Run (step leaseSeconds) Meets .initial s) :
    s.workers.length ≤ 1 ∧ ∀ t, Run (step leaseSeconds) Meets s t → s.file.HasResult →
      t.file = s.file := by
  have hinv : Inv s := hrun.invariant inv_step inv_initial
  exact ⟨hinv.one, fun t ht hresult => ht.keeps inv_step file_step hinv hresult⟩

/-! ## scripts -/

def launchScript (pid : Nat) : List Event :=
  [.launchBegin true, .launchStep, .launchStep, .launchStep, .launchStep, .sshStart pid]

def workerScript (pid : Nat) : List Event :=
  [.workerRead pid, .workerMkdir pid, .workerWait pid 0, .workerRun pid 0]

def firstRunning : StateFile :=
  { status := .running, attempt := some 1, pid := some 1, leaseExpiresAt := some 60 }

/-- A reconcile run after the lease of the first attempt, up to the answer of the probe. -/
def reconcileScript (exitCode : Int) : List Event :=
  [.reconcileRead 60, .probe firstRunning exitCode]

/-- The first worker dies and is reconciled, the second passes. -/
def retryScript : List Event :=
  launchScript 1 ++ [.sshReturn 0] ++ workerScript 1 ++ [.workerDie 1] ++ reconcileScript 1 ++
    [.reconcileWrite firstRunning] ++ launchScript 2 ++ [.sshReturn 0] ++ workerScript 2 ++
    [.beat 2 30, .beatWrite 2, .workerFinish 2 0]

/-- **A retried task is safe.** -/
theorem retryScript_safe : ∃ s, exec (step 60) Meets .initial retryScript = some s ∧
    s.file.status = .pass ∧ s.workers.length ≤ 1 ∧
      ∀ t, Run (step 60) Meets s t → s.file.HasResult → t.file = s.file := by
  obtain ⟨s, hs, hpass⟩ : ∃ s, exec (step 60) Meets .initial retryScript = some s ∧
      s.file.status = .pass := by
    refine ⟨_, rfl, ?_⟩
    decide +kernel
  exact ⟨s, hs, hpass, farmTask_safe (run_of_exec hs)⟩

/-- A probe fails although the first worker lives, and a second worker is launched. -/
def lostProbeScript : List Event :=
  launchScript 1 ++ [.sshReturn 0] ++ workerScript 1 ++ reconcileScript 255 ++
    [.reconcileWrite firstRunning] ++ launchScript 2

def Unguarded (_ : System) (_ : Event) : Prop := True

instance (s : System) (e : Event) : Decidable (Unguarded s e) := .isTrue trivial

theorem exists_overwritten (es es' : List Event) {status : Status}
    (h : ((exec (step 60) Unguarded .initial es).map fun s =>
      (s.file.status, (exec (step 60) Unguarded s es').map fun t => t.file.status)) =
        some (.pass, some status)) :
    ∃ s t, Run (step 60) Unguarded .initial s ∧ Run (step 60) Unguarded s t ∧
      s.file.HasResult ∧ t.file.status = status := by
  obtain ⟨s, hs, hp⟩ := Option.map_eq_some_iff.mp h
  obtain ⟨hps, ht⟩ := Prod.mk.inj hp
  obtain ⟨t, ht, hst⟩ := Option.map_eq_some_iff.mp ht
  exact ⟨s, t, run_of_exec hs, run_of_exec ht, .inl hps, hst⟩

/-- **A run without each of the conditions**: a probe whose connection is lost makes a second
worker; a lost reply to a submission, a late reconcile run and a late heartbeat replace a pass. -/
theorem farmTask_breaks : (∃ s, Run (step 60) Unguarded .initial s ∧ s.workers.length = 2) ∧
      ∀ status ∈ [Status.submit_failed, .retryable, .running],
        ∃ s t, Run (step 60) Unguarded .initial s ∧ Run (step 60) Unguarded s t ∧
          s.file.HasResult ∧ t.file.status = status := by
  constructor
  · have hlost : (exec (step 60) Unguarded .initial lostProbeScript).map
        (fun s => s.workers.length) = some 2 := by decide +kernel
    obtain ⟨s, hs, htwo⟩ := Option.map_eq_some_iff.mp hlost
    exact ⟨s, run_of_exec hs, htwo⟩
  · intro status hstatus
    simp only [mem_cons, not_mem_nil, or_false] at hstatus
    rcases hstatus with rfl | rfl | rfl
    · exact exists_overwritten (launchScript 1 ++ workerScript 1 ++ [.workerFinish 1 0])
        [.sshReturn 255, .launchStep] (by decide +kernel)
    · exact exists_overwritten (launchScript 1 ++ [.sshReturn 0] ++ workerScript 1 ++
          [.reconcileRead 60, .workerFinish 1 0])
        [.workerDie 1, .probe firstRunning 1, .reconcileWrite firstRunning]
        (by decide +kernel)
    · exact exists_overwritten (launchScript 1 ++ [.sshReturn 0] ++ workerScript 1 ++
          [.beat 1 30, .workerFinish 1 0]) [.beatWrite 1] (by decide +kernel)

/-- No attempt directory is made twice, and every live worker that has one has it for itself. -/
structure AttemptsApart (s : System) : Prop where
  nodup : s.attempts.Nodup
  pids : (s.workers.map Worker.pid).Nodup
  own : ∀ w ∈ s.workers, ∀ attempt, w.stage.attempt = some attempt → attempt ∈ s.attempts ∧
    ∀ v ∈ s.workers, v.stage.attempt = some attempt → v = w

/-- A worker goes on in its directory, or makes one that does not exist. -/
theorem AttemptsApart.setWorker (h : AttemptsApart s) (hw : w ∈ s.workers) {v : Worker}
    (hpd : v.pid = w.pid) (hwr : s'.workers = (s.setWorker v).workers)
    (hnd : s'.attempts.Nodup) (hat : s.attempts ⊆ s'.attempts)
    (hst : ∀ a, v.stage.attempt = some a → a ∈ s'.attempts ∧
      (w.stage.attempt = some a ∨ a ∉ s.attempts)) : AttemptsApart s' := by
  have hmm : ∀ x ∈ s'.workers, x = v ∨ x ∈ s.workers ∧ x ≠ w := by
    intro x hx
    rw [hwr] at hx
    obtain ⟨u, hu, rfl⟩ := mem_map.mp hx
    split_ifs with heq
    · exact Or.inl rfl
    · exact Or.inr ⟨hu, fun huw => heq (by rw [huw, hpd])⟩
  refine ⟨hnd, ?_, fun x hx a hxa => ?_⟩
  · have hmp : s'.workers.map Worker.pid = s.workers.map Worker.pid := by
      rw [hwr, System.setWorker, map_map]
      refine map_congr_left fun u _ => ?_
      dsimp only [Function.comp]
      split_ifs with heq
      · exact heq.symm
      · rfl
    rw [hmp]
    exact h.pids
  · rcases hmm x hx with rfl | ⟨hx, hxw⟩
    · obtain ⟨hin, hol⟩ := hst a hxa
      refine ⟨hin, fun y hy hya => ?_⟩
      rcases hmm y hy with rfl | ⟨hy, hyw⟩
      · rfl
      · obtain ⟨hin', how⟩ := h.own y hy a hya
        exact absurd (how w hw (hol.resolve_right fun hnt => hnt hin')).symm hyw
    · obtain ⟨hin, how⟩ := h.own x hx a hxa
      refine ⟨hat hin, fun y hy hya => ?_⟩
      rcases hmm y hy with rfl | ⟨hy, -⟩
      · have hwa := (hst a hya).2.resolve_right fun hnt => hnt hin
        exact absurd (how w hw hwa).symm hxw
      · exact how y hy hya

theorem AttemptsApart.of_sublist (h : AttemptsApart s) (hwr : s'.workers <+ s.workers)
    (ha : s'.attempts = s.attempts) : AttemptsApart s' where
  nodup := ha ▸ h.nodup
  pids := (hwr.map Worker.pid).nodup h.pids
  own x hx attempt hxa := by
    obtain ⟨hin, ho⟩ := h.own x (hwr.subset hx) attempt hxa
    exact ⟨ha ▸ hin, fun y hy hya => ho y (hwr.subset hy) hya⟩

theorem AttemptsApart.same (h : AttemptsApart s) (hwr : s'.workers = s.workers)
    (ha : s'.attempts = s.attempts) : AttemptsApart s' :=
  h.of_sublist (hwr ▸ Sublist.refl _) ha

theorem AttemptsApart.removeWorker (h : AttemptsApart s) (pid : Nat) :
    AttemptsApart (s.removeWorker pid) := h.of_sublist filter_sublist rfl

theorem AttemptsApart.goOn (h : AttemptsApart s) (hw : w ∈ s.workers) {v : Worker}
    (hp : v.pid = w.pid) (hs : v.stage.attempt = w.stage.attempt)
    (hwr : s'.workers = (s.setWorker v).workers) (ha : s'.attempts = s.attempts) :
    AttemptsApart s' := by
  refine h.setWorker hw hp hwr (ha ▸ h.nodup) (ha ▸ Subset.refl _) ?_
  intro a hv
  rw [hs] at hv
  exact ⟨ha ▸ (h.own w hw a hv).1, Or.inl hv⟩

theorem AttemptsApart.sshStart (h : AttemptsApart s) {pid : Nat}
    (hp : pid ∉ s.workers.map Worker.pid) (launch : Launch) :
    AttemptsApart { s with launch := launch, workers := { pid := pid } :: s.workers } where
  nodup := h.nodup
  pids := nodup_cons.mpr ⟨hp, h.pids⟩
  own x hx attempt hxa := by
    have ho : ∀ y ∈ ({ pid := pid } : Worker) :: s.workers, y.stage.attempt = some attempt →
        y ∈ s.workers := by
      intro y hy hya
      rcases mem_cons.mp hy with rfl | hy
      · cases hya
      · exact hy
    obtain ⟨hin, how⟩ := h.own x (ho x hx hxa) attempt hxa
    exact ⟨hin, fun y hy hya => how y (ho y hy hya) hya⟩

theorem attemptsApart_step {leaseSeconds : Int} (s : System) (e : Event) (s' : System)
    (h : AttemptsApart s) (_ : Unguarded s e) (hs : step leaseSeconds s e = some s') :
    AttemptsApart s' := by
  by_cases he : e.OfWorker
  · obtain ⟨w, hw, hs⟩ := workerStep_of_step he hs
    cases hs with
    | gone => exact h.removeWorker w.pid
    | made hsg hn =>
      refine h.setWorker hw (v := ⟨w.pid, .made _, w.beating⟩) rfl rfl
        (nodup_cons.mpr ⟨hn, h.nodup⟩) (fun _ => mem_cons_of_mem _) fun a ha => ?_
      cases ha
      exact ⟨mem_cons_self, .inr hn⟩
    | beatWrite => exact h.goOn hw (v := { w with beating := none }) rfl rfl rfl rfl
    | beat hsg lease => exact h.goOn hw (v := { w with beating := some lease }) rfl rfl rfl rfl
    | read hsg =>
      exact h.goOn hw (v := ⟨w.pid, .read _, w.beating⟩) rfl (by rw [hsg]; rfl) rfl rfl
    | waiting hsg lease =>
      exact h.goOn hw (v := ⟨w.pid, .waiting _, w.beating⟩) rfl (by rw [hsg]; rfl) rfl rfl
    | running hsg lease =>
      exact h.goOn hw (v := ⟨w.pid, .running _, w.beating⟩) rfl (by rw [hsg]; rfl) rfl rfl
    | finished hsg =>
      exact h.goOn hw (v := ⟨w.pid, .finished _, w.beating⟩) rfl (by rw [hsg]; rfl) rfl rfl
  · rcases of_step he hs with ⟨pid, hp, -, rfl⟩ | ⟨hwr, hat, -⟩
    · exact h.sshStart hp _
    · exact h.same hwr hat

/-- **No two workers share an attempt directory**, whatever runs interleave and whatever answers are
lost. -/
theorem attempts_apart {leaseSeconds : Int} {s : System}
    (hrun : Run (step leaseSeconds) Unguarded .initial s) : AttemptsApart s :=
  hrun.invariant attemptsApart_step
    (⟨nodup_nil, nodup_nil, fun _ hw => absurd hw not_mem_nil⟩ : AttemptsApart .initial)

/-- Two live workers, each in a directory of its own. -/
theorem attempts_apart_lostProbe : ∃ s,
    exec (step 60) Unguarded .initial (lostProbeScript ++ [.sshReturn 0] ++ workerScript 2) =
      some s ∧ s.workers.map (fun w => w.stage.attempt) = [some 2, some 1] ∧ AttemptsApart s := by
  have hr : (exec (step 60) Unguarded .initial (lostProbeScript ++ [.sshReturn 0] ++
      workerScript 2)).map (fun s => s.workers.map fun w => w.stage.attempt) =
        some [some 2, some 1] := by decide +kernel
  obtain ⟨s, hs, ht⟩ := Option.map_eq_some_iff.mp hr
  exact ⟨s, hs, ht, attempts_apart (run_of_exec hs)⟩

end EmuFlow.ValidationFarm
