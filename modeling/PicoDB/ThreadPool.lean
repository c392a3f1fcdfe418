import Mathlib.Logic.Function.Basic
import PicoDB.Lib.Lts
import PicoDB.Vector

/-!
# PicoDB.ThreadPool — `ThreadPool.h` and `ThreadWorker.h`

The workers of a pool share one queue of tasks; each has a stop flag, a mutex
and a condition variable of its own. Any number of client threads call
`submitTask`, `shutDown` and `shutDownAfterWorkers`. Every queue operation,
flag write, lock, unlock, notify and park is one step.

A parked worker may also wake for no reason. Either way it takes its mutex back
before it goes on.
-/

namespace PicoDB.ThreadPool

open ConcurrentVector

/-- A task with its number in the order of submission, which is history. -/
structure Submission (Task : Type) where
  number : Nat
  task : Task
deriving DecidableEq, Repr

/-! ## Threads -/

/-- Where a worker is in `runIndefinitely`. -/
inductive WorkerPc (Task : Type) where
  /-- at `!stopFlag_` -/
  | testingStop
  /-- at `!queueOfTasks->empty()` -/
  | testingEmpty
  | popping
  | running (task : Submission Task)
  /-- about to take `workerMutex` -/
  | locking
  /-- about to wait, with the mutex -/
  | waiting
  | parked
  /-- woken, about to take the mutex back -/
  | woken
  /-- at the end of the scope of `workerLock` -/
  | unlocking
  | ended
deriving DecidableEq, Repr

/-- `ThreadWorker`; `locked` tells whether its `workerMutex` is taken. -/
structure Worker (Task : Type) where
  pc : WorkerPc Task := .testingStop
  stopFlag_ : Bool := false
  locked : Bool := false
deriving DecidableEq, Repr

/-- `workerQueueIsEmpty.notify_all()`. -/
def Worker.notifyAll {Task : Type} (w : Worker Task) : Worker Task :=
  match w.pc with
  | .parked => { w with pc := .woken }
  | _ => w

/-- Where a client thread is, in a pool of `n` workers. -/
inductive ClientPc (n : Nat) (Task : Type) where
  | idle
  /-- in `assignJobToWorker`, at `workers[randomIndex]` -/
  | pushing (randomIndex : Nat) (task : Task)
  | notifying (w : Fin n)
  /-- in `notifyThisThreadQueueWasFilled`, about to take the worker's mutex -/
  | locking (w : Fin n)
  | notifyingLocked (w : Fin n)
  | unlocking (w : Fin n)
  /-- in `shutDown`, at `i<numOfThreadWorkers` -/
  | stopping (i : Nat)
  | notifyingStopped (w : Fin n)
  /-- in `shutDownAfterWorkers`, at `i<numOfThreadWorkers` or in a `join` -/
  | joining (i : Nat)
  /-- indexed `workers` out of its bounds -/
  | lost
deriving DecidableEq, Repr

/-- A pool of `n` workers; `U` are the client threads. -/
structure State (n : Nat) (U Task : Type) where
  taskQueue : List (Submission Task) := []
  workers : Fin n → Worker Task := fun _ => {}
  clients : U → ClientPc n Task := fun _ => .idle
  /-- history: the tasks pushed on the queue -/
  submitted : List (Submission Task) := []
  /-- history: the tasks popped from the queue -/
  taken : List (Submission Task) := []
  /-- history: the tasks run -/
  ran : List (Submission Task) := []

/-- `random_number<int>(3)%numOfThreadWorkers`. -/
def randomIndex (n : Nat) (draw : Fin 3 → Nat) : Except Fault Nat :=
  (castDigits (randomNumber draw) (2 ^ 31 - 1)).map fun v => v % n

/-! ## Steps -/

variable {n : Nat} {U Task : Type}

/-- Worker `w` becomes `x`. -/
def setWorker (w : Fin n) (x : Worker Task) (s : State n U Task) : State n U Task :=
  { s with workers := Function.update s.workers w x }

/-- A step of worker `w`; `throws` tells how `run` ends. -/
def workerStep (w : Fin n) (throws : Bool) (s : State n U Task) : State n U Task :=
  let x := s.workers w
  match x.pc with
  | .testingStop => setWorker w { x with pc := if x.stopFlag_ then .ended else .testingEmpty } s
  | .testingEmpty =>
    -- the queue may change again before the pop or the wait
    setWorker w { x with pc := if s.taskQueue = [] then .locking else .popping } s
  | .popping =>
    match pop s.taskQueue with
    | (some task, rest) =>
      setWorker w { x with pc := .running task }
        { s with taskQueue := rest, taken := s.taken ++ [task] }
    -- another worker was faster: the task is null and nothing is run
    | (none, _) => setWorker w { x with pc := .testingEmpty } s
  | .running task =>
    -- an exception leaves the inner loop and is caught within the outer one
    setWorker w { x with pc := if throws then .testingStop else .testingEmpty }
      { s with ran := s.ran ++ [task] }
  | .locking => setWorker w { x with pc := .waiting, locked := true } s
  -- `wait` gives the mutex back and parks in one step
  | .waiting => setWorker w { x with pc := .parked, locked := false } s
  | .parked => setWorker w { x with pc := .woken } s
  | .woken => setWorker w { x with pc := .unlocking, locked := true } s
  | .unlocking => setWorker w { x with pc := .testingStop, locked := false } s
  | .ended => s

variable [DecidableEq U]

/-- Client `u` goes to `pc`. -/
def setClient (u : U) (pc : ClientPc n Task) (s : State n U Task) : State n U Task :=
  { s with clients := Function.update s.clients u pc }

/-- A step of client `u`. -/
def clientStep (u : U) (s : State n U Task) : State n U Task :=
  match s.clients u with
  | .idle => s
  | .pushing i task =>
    if h : i < n then
      let submission := ⟨s.submitted.length, task⟩
      setClient u (.notifying ⟨i, h⟩)
        { s with
          taskQueue := pushBack submission s.taskQueue
          submitted := s.submitted ++ [submission] }
    else setClient u .lost s
  | .notifying w => setClient u (.locking w) (setWorker w (s.workers w).notifyAll s)
  | .locking w =>
    setClient u (.notifyingLocked w) (setWorker w { s.workers w with locked := true } s)
  | .notifyingLocked w => setClient u (.unlocking w) (setWorker w (s.workers w).notifyAll s)
  | .unlocking w => setClient u .idle (setWorker w { s.workers w with locked := false } s)
  | .stopping i =>
    if h : i < n then
      setClient u (.notifyingStopped ⟨i, h⟩)
        (setWorker ⟨i, h⟩ { s.workers ⟨i, h⟩ with stopFlag_ := true } s)
    else setClient u .idle s
  | .notifyingStopped w =>
    setClient u (.stopping (w + 1)) (setWorker w (s.workers w).notifyAll s)
  | .joining i => if i < n then setClient u (.joining (i + 1)) s else setClient u .idle s
  | .lost => s

/-- Client `u` can go on: it is in a call, a mutex it takes is free, a worker
it joins has ended. -/
def clientReady (u : U) (s : State n U Task) : Bool :=
  match s.clients u with
  | .idle => false
  | .locking w => !(s.workers w).locked
  | .joining i =>
    if h : i < n then
      match (s.workers ⟨i, h⟩).pc with
      | .ended => true
      | _ => false
    else true
  | .lost => false
  | _ => true

/-- Worker `w` can go on: it has not ended, and a mutex it takes is free. -/
def workerReady (w : Fin n) (s : State n U Task) : Bool :=
  match (s.workers w).pc with
  | .locking => !(s.workers w).locked
  | .woken => !(s.workers w).locked
  | .ended => false
  | _ => true

/-- What can happen next. A step of a parked worker is a wake-up for no reason. -/
inductive Label (n : Nat) (U Task : Type) where
  | submitTask (u : U) (task : Task) (draw : Fin 3 → Nat)
  | shutDown (u : U)
  | shutDownAfterWorkers (u : U)
  | client (u : U)
  | worker (w : Fin n) (throws : Bool)

/-- Whether client `u` is in no call. -/
def isIdle (u : U) (s : State n U Task) : Bool :=
  match s.clients u with
  | .idle => true
  | _ => false

/-- The pool: all workers are at the head of their loop at first. -/
def pool (n : Nat) (U Task : Type) [DecidableEq U] :
    Lts.System (State n U Task) (Label n U Task) where
  Init s := s = {}
  guard
    | .submitTask u _ _, s => isIdle u s = true
    | .shutDown u, s => isIdle u s = true
    | .shutDownAfterWorkers u, s => isIdle u s = true
    | .client u, s => clientReady u s = true
    | .worker w _, s => workerReady w s = true
  update
    | .submitTask u task draw, s =>
      match randomIndex n draw with
      | .ok i => setClient u (.pushing i task) s
      | .error _ => s
    | .shutDown u, s => setClient u (.stopping 0) s
    | .shutDownAfterWorkers u, s => setClient u (.joining 0) s
    | .client u, s => clientStep u s
    | .worker w throws, s => workerStep w throws s

instance (n : Nat) (U Task : Type) [DecidableEq U] (l : Label n U Task) (s : State n U Task) :
    Decidable ((pool n U Task).guard l s) :=
  match l with
  | .submitTask u _ _ => inferInstanceAs (Decidable (isIdle u s = true))
  | .shutDown u => inferInstanceAs (Decidable (isIdle u s = true))
  | .shutDownAfterWorkers u => inferInstanceAs (Decidable (isIdle u s = true))
  | .client u => inferInstanceAs (Decidable (clientReady u s = true))
  | .worker w _ => inferInstanceAs (Decidable (workerReady w s = true))

/-! ## What a step leaves alone -/

omit [DecidableEq U] in
/-- A worker leaves the clients alone. -/
theorem clients_workerStep (w : Fin n) (throws : Bool) (s : State n U Task) :
    (workerStep w throws s).clients = s.clients := by
  unfold workerStep setWorker
  dsimp only
  repeat' split
  all_goals rfl

/-- A client leaves the other clients alone. -/
theorem clients_clientStep_of_ne {u u' : U} (h : u' ≠ u) (s : State n U Task) :
    (clientStep u s).clients u' = s.clients u' := by
  unfold clientStep setClient setWorker
  repeat' split
  all_goals simp [h]

end PicoDB.ThreadPool
