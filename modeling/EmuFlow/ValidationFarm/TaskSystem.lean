import EmuFlow.Lib.GuardedRuns
import EmuFlow.Lib.Keyed

/-!
# The step system of a validation farm task

One task of `emuflow/validation_farm.py`: its state file, its claim file, its attempt directories,
the launch at work on it, its workers on their node and any number of reconcile runs. A state file
is replaced atomically, so reading it and writing it are single steps; between the two of one actor
any other actor may act. A worker can die at any step, which is also what an exception does to it,
and an SSH command can fail with or without having taken effect.
-/

namespace EmuFlow.ValidationFarm

open GuardedRuns

/-- `status` of a state file. -/
inductive Status where
  | prepared
  | blocked_storage
  | submitting
  | submit_failed
  | waiting_for_slot
  | running
  | pass
  | failed
  | retryable
  deriving DecidableEq

structure StateFile where
  status : Status
  attempt : Option Int := none
  pid : Option Nat := none
  leaseExpiresAt : Option Int := none
  deriving DecidableEq

/-! ## the actors -/

/-- What the launch that holds the launch lock does next for the task. -/
inductive Launch where
  | idle
  /-- The storage check failed; the state file is to be read. -/
  | storageFailed
  /-- `blocked_storage` is to be written. -/
  | blocking
  /-- The storage check passed; the state file is to be read. -/
  | storagePassed
  /-- `prepared` is to be written. -/
  | resetting
  /-- `submit` is to read the state file. -/
  | reading
  /-- `submit` has read a state it submits from. -/
  | claiming (previous : StateFile)
  /-- The claim is made; `submitting` is to be written. -/
  | claimed (previous : StateFile)
  /-- SSH runs; `started` once the remote shell has started the worker. -/
  | connecting (started : Bool)
  /-- SSH failed; `submit_failed` is to be written. -/
  | sshFailed
  /-- The claim is to be removed. -/
  | unclaiming
  deriving DecidableEq

/-- How far a worker has come. -/
inductive Stage where
  | starting
  /-- It has read the state file and computed its attempt. -/
  | read (attempt : Int)
  /-- It has made the directory of its attempt. -/
  | made (attempt : Int)
  | waiting (attempt : Int)
  | running (attempt : Int)
  /-- It has written its result. -/
  | finished (attempt : Int)

structure Worker where
  pid : Nat
  stage : Stage := .starting
  /-- The lease its heartbeat thread is about to write. -/
  beating : Option Int := none

/-- A reconcile run at work on the task, with the state file it read. -/
inductive Reconcile where
  /-- The probe is out. -/
  | probing (state : StateFile)
  /-- The probe failed; `retryable` is to be written. -/
  | absent (state : StateFile)
  deriving DecidableEq

structure System where
  file : StateFile
  /-- `submission.claim` exists. -/
  claim : Bool
  /-- The attempts whose directories exist. -/
  attempts : List Int
  launch : Launch
  workers : List Worker
  reconciles : List Reconcile

def System.initial : System :=
  { file := { status := .prepared }
    claim := false
    attempts := []
    launch := .idle
    workers := []
    reconciles := [] }

inductive Event where
  /-- A launch takes the lock and checks the storage. -/
  | launchBegin (storagePass : Bool)
  | launchStep
  /-- The remote shell starts the worker. -/
  | sshStart (pid : Nat)
  | sshReturn (exitCode : Int)
  | workerRead (pid : Nat)
  | workerMkdir (pid : Nat)
  | workerWait (pid : Nat) (now : Int)
  | workerRun (pid : Nat) (now : Int)
  | workerFinish (pid : Nat) (exitCode : Int)
  | workerDie (pid : Nat)
  /-- The heartbeat interval of a worker is over. -/
  | beat (pid : Nat) (now : Int)
  | beatWrite (pid : Nat)
  | reconcileRead (now : Int)
  | probe (state : StateFile) (exitCode : Int)
  | reconcileWrite (state : StateFile)

/-- The next step of `_launch_validation_farm_locked` for the task, SSH apart. -/
def launchStep (s : System) : Option System :=
  match s.launch with
  | .idle | .connecting _ => none
  | .storageFailed =>
    if s.file.status ∈ [.prepared, .submit_failed, .blocked_storage] then
      some { s with launch := .blocking }
    else some { s with launch := .idle }
  | .blocking => some { s with file := { status := .blocked_storage }, launch := .idle }
  | .storagePassed =>
    if s.file.status = .blocked_storage then some { s with launch := .resetting }
    else some { s with launch := .reading }
  | .resetting => some { s with file := { status := .prepared }, launch := .reading }
  | .reading =>
    if s.file.status ∈ [.prepared, .submit_failed, .retryable] then
      some { s with launch := .claiming s.file }
    else some { s with launch := .idle }
  | .claiming previous =>
    -- only launches touch the claim, so removing and making it are one step
    if s.claim ∧ previous.status = .prepared then some { s with launch := .idle }
    else some { s with claim := true, launch := .claimed previous }
  | .claimed previous =>
    some { s with file := { status := .submitting, attempt := previous.attempt }
                  launch := .connecting false }
  | .sshFailed => some { s with file := { status := .submit_failed }, launch := .unclaiming }
  | .unclaiming => some { s with claim := false, launch := .idle }

/-- SSH returns; the exit code is that of the remote shell or of a lost connection. -/
def sshReturn (s : System) (exitCode : Int) : Option System :=
  match s.launch with
  | .connecting started =>
    if exitCode ≠ 0 then some { s with launch := .sshFailed }
    else if started then some { s with launch := .idle }
    else none
  | _ => none

/-! ## workers -/

def System.setWorker (s : System) (w : Worker) : System :=
  { s with workers := s.workers.map fun v => if v.pid = w.pid then w else v }

def System.removeWorker (s : System) (pid : Nat) : System :=
  { s with workers := s.workers.filter fun v => v.pid ≠ pid }

/-- `run_validation_farm_task` reads the state file. -/
def workerRead (s : System) (w : Worker) : Option System :=
  match w.stage with
  | .starting =>
    if s.file.status ∉ [.prepared, .submitting, .retryable] ∨ s.file.attempt.getD 0 < 0 then
      some (s.removeWorker w.pid)
    else some (s.setWorker { w with stage := .read (s.file.attempt.getD 0 + 1) })
  | _ => none

/-- `attempt_dir.mkdir(exist_ok=False)`. -/
def workerMkdir (s : System) (w : Worker) : Option System :=
  match w.stage with
  | .read attempt =>
    if attempt ∈ s.attempts then some (s.removeWorker w.pid)
    else some { s.setWorker { w with stage := .made attempt } with
      attempts := attempt :: s.attempts }
  | _ => none

def workerWait (leaseSeconds : Int) (s : System) (w : Worker) (now : Int) : Option System :=
  match w.stage with
  | .made attempt =>
    some { s.setWorker { w with stage := .waiting attempt } with
      file := { status := .waiting_for_slot, attempt := some attempt, pid := some w.pid
                leaseExpiresAt := some (now + leaseSeconds) } }
  | _ => none

def workerRun (leaseSeconds : Int) (s : System) (w : Worker) (now : Int) : Option System :=
  match w.stage with
  | .waiting attempt =>
    some { s.setWorker { w with stage := .running attempt } with
      file := { status := .running, attempt := some attempt, pid := some w.pid
                leaseExpiresAt := some (now + leaseSeconds) } }
  | _ => none

/-- The command has ended and `heartbeat_thread.join` has returned or timed out. -/
def workerFinish (s : System) (w : Worker) (exitCode : Int) : Option System :=
  match w.stage with
  | .running attempt =>
    some { s.setWorker { w with stage := .finished attempt } with
      file := { status := if exitCode = 0 then .pass else .failed
                attempt := some attempt, pid := some w.pid } }
  | _ => none

def beat (leaseSeconds : Int) (s : System) (w : Worker) (now : Int) : Option System :=
  match w.stage, w.beating with
  | .running _, none => some (s.setWorker { w with beating := some (now + leaseSeconds) })
  | _, _ => none

def Stage.attempt : Stage → Option Int
  | .starting | .read _ => none
  | .made attempt | .waiting attempt | .running attempt | .finished attempt => some attempt

def beatWrite (s : System) (w : Worker) : Option System :=
  match w.beating with
  | some lease =>
    some { s.setWorker { w with beating := none } with
      file := { status := .running, attempt := w.stage.attempt, pid := some w.pid
                leaseExpiresAt := some lease } }
  | none => none

/-- A reconcile run reads the state file and probes an expired worker; an invalid lease or pid
raises. -/
def reconcileRead (s : System) (now : Int) : Option System :=
  if s.file.status ∈ [.running, .waiting_for_slot] then
    match s.file.leaseExpiresAt, s.file.pid with
    | some expiry, some pid =>
      if now < expiry ∨ pid < 1 then some s
      else some { s with reconciles := .probing s.file :: s.reconciles }
    | _, _ => some s
  else some s

/-- `kill -0` on the worker's node returns; any process of that pid answers it. -/
def probe (s : System) (state : StateFile) (exitCode : Int) : Option System :=
  if .probing state ∈ s.reconciles then
    if exitCode = 0 then some { s with reconciles := s.reconciles.erase (.probing state) }
    else some { s with reconciles := .absent state :: s.reconciles.erase (.probing state) }
  else none

def reconcileWrite (s : System) (state : StateFile) : Option System :=
  if .absent state ∈ s.reconciles then
    some { s with file := { state with status := .retryable }
                  reconciles := s.reconciles.erase (.absent state) }
  else none

def System.findWorker (s : System) (pid : Nat) : Option Worker :=
  Keyed.find Worker.pid s.workers pid

/-- One step of one actor; `none` where the event cannot happen. -/
def step (leaseSeconds : Int) (s : System) : Event → Option System
  | .launchBegin storagePass =>
    if s.launch = .idle then
      some { s with launch := if storagePass then .storagePassed else .storageFailed }
    else none
  | .launchStep => launchStep s
  | .sshStart pid =>
    if s.launch = .connecting false ∧ pid ∉ s.workers.map Worker.pid then
      some { s with launch := .connecting true, workers := { pid := pid } :: s.workers }
    else none
  | .sshReturn exitCode => sshReturn s exitCode
  | .workerRead pid => (s.findWorker pid).bind (workerRead s)
  | .workerMkdir pid => (s.findWorker pid).bind (workerMkdir s)
  | .workerWait pid now => (s.findWorker pid).bind fun w => workerWait leaseSeconds s w now
  | .workerRun pid now => (s.findWorker pid).bind fun w => workerRun leaseSeconds s w now
  | .workerFinish pid exitCode => (s.findWorker pid).bind fun w => workerFinish s w exitCode
  | .workerDie pid => (s.findWorker pid).bind fun w => some (s.removeWorker w.pid)
  | .beat pid now => (s.findWorker pid).bind fun w => beat leaseSeconds s w now
  | .beatWrite pid => (s.findWorker pid).bind (beatWrite s)
  | .reconcileRead now => reconcileRead s now
  | .probe state exitCode => probe s state exitCode
  | .reconcileWrite state => reconcileWrite s state

end EmuFlow.ValidationFarm
