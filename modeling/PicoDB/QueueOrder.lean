import PicoDB.Lib.Shelf
import PicoDB.System
import PicoDB.ThreadPool

/-!
# PicoDB.QueueOrder — the order in which queued work is served

`ConcurrentVector` pushes at the back and pops from the back. Both of its uses
as a work queue, the driver's requests and the tasks of a pool, are a shelf
(`Lib.Shelf`): each step of the two systems is a push, a pop or nothing to the
queue (`requestLabel`, `taskLabel`). So each serves its work in order exactly
as long as no pop finds more than one item.
-/

namespace PicoDB

open ConcurrentVector Lts

theorem pop_of_ne_nil {α : Type} {l : List α} (h : l ≠ []) :
    ∃ x, pop l = (some x, l.dropLast) ∧ l.getLast? = some x :=
  ⟨l.getLast h, by rw [pop, List.getLast?_eq_some_getLast h], List.getLast?_eq_some_getLast h⟩

/-! ## Requests -/

section Requests

variable {T : Type} {X : Externals}

/-- The driver's queue as a shelf. -/
def requestShelf (s : State T) : Shelf.State (SharedPtr PicoRecord) :=
  ⟨s.requestQueue, s.pushed, s.popped⟩

/-- What a step is to the driver's queue. -/
def requestLabel (X : Externals) (s : State T) :
    Label T → Option (Shelf.Label (SharedPtr PicoRecord))
  | .issue _ a draw _ _ _ =>
    some (.push ⟨s.fresh, (a.build X draw).getCompleteMessageInJsonAsOnBuffer⟩)
  | .driver _ =>
    match s.driver with
    | .popping => if s.requestQueue = [] then none else some .pop
    | _ => none
  | .caller _ _ => none
  | .session _ _ => none

/-- `writeOneBuffer` pops while more than one request waits. -/
def Overtakes (s : State T) (l : Label T) : Prop :=
  (∃ M, l = .driver M) ∧ s.driver = .popping ∧ 1 < s.requestQueue.length

/-- A step of the driver that pops nothing leaves the queue as it is. -/
theorem driverStep_requestShelf (M : Memory) {s : State T}
    (h : s.driver = .popping → s.requestQueue = []) :
    requestShelf (driverStep X M s) = requestShelf s := by
  by_cases hd : s.driver = .popping
  · simp only [requestShelf, driverStep, hd, h hd]
    rfl
  · unfold driverStep
    repeat' split
    all_goals first
      | rfl
      | exact absurd ‹s.driver = .popping› hd

theorem driverStep_requestShelf_pop (M : Memory) {s : State T} (hd : s.driver = .popping)
    (hq : s.requestQueue ≠ []) :
    requestShelf (driverStep X M s) = Shelf.shelf.update .pop (requestShelf s) := by
  rcases pop_of_ne_nil hq with ⟨r, hpop, hlast⟩
  simp only [driverStep, hd, hpop, requestShelf, Shelf.shelf, hlast, Option.toList]

variable [DecidableEq T]

/-- Records are pushed at addresses never used before. -/
theorem addr_lt_fresh {s : State T} (h : Reachable (system X T) s) :
    ∀ r ∈ s.pushed, r.addr < s.fresh := by
  refine reachable_invariant (fun s => ∀ r ∈ s.pushed, r.addr < s.fresh) ?_ ?_ h
  · rintro s rfl r hr
    cases hr
  · intro l s _ hi r hr
    cases l with
    | issue t a draw t1 t2 userTimeOut =>
      have hold : ∀ r ∈ s.pushed, r.addr < s.fresh + 1 := fun r hr => Nat.lt_succ_of_lt (hi r hr)
      exact List.forall_mem_append.mpr
        ⟨hold, List.forall_mem_singleton.mpr (Nat.lt_succ_self s.fresh)⟩ r hr
    | caller t locked =>
      have hsame := callerStep_sameLoops X t locked s
      rw [update_caller, hsame.pushed] at hr
      rw [update_caller, hsame.fresh]
      exact hi r hr
    | driver M =>
      rw [update_driver, (driverStep_sameCalls X M s).pushed] at hr
      rw [update_driver]
      refine lt_of_lt_of_le (hi r hr) ?_
      unfold driverStep
      repeat' split
      all_goals first
        | exact le_refl _
        | exact Nat.le_succ _
    | session dangling M =>
      rw [update_session, (sessionStep_sameCalls X dangling M s).pushed] at hr
      rw [update_session, (sessionStep_frame X dangling M s).2.2.2.1]
      exact hi r hr

/-- The driver serves its requests in order as long as it overtakes none. -/
theorem requests_in_order_iff {tr : List (State T × Label T)} {s : State T}
    (h : Run (system X T) tr s) :
    s.popped <+: s.pushed ↔ ∀ p ∈ tr, ¬ Overtakes p.1 p.2 := by
  have hlabel : ∀ (s : State T) (l : Label T), requestLabel X s l = some .pop ↔
      (∃ M, l = .driver M) ∧ s.driver = .popping ∧ s.requestQueue ≠ [] := by
    intro s l
    cases l with
    | issue t a draw t1 t2 userTimeOut => simp [requestLabel]
    | caller t locked => simp [requestLabel]
    | session dangling M => simp [requestLabel]
    | driver M => cases hd : s.driver <;> simp [requestLabel, hd]
  have hshelf := Shelf.prefix_iff_of_simulates requestShelf (requestLabel X) ?_ ?_ ?_ h
  · -- a crowded pop of the shelf is an overtaking step of the driver
    refine hshelf.trans (forall₂_congr fun p hp => ?_)
    rw [hlabel]
    constructor
    · rintro hcalm ⟨hl, hd, hlt⟩
      have hne : p.1.requestQueue ≠ [] := by
        rintro hnil
        simp [hnil] at hlt
      exact absurd hlt (not_lt.mpr (hcalm ⟨hl, hd, hne⟩))
    · rintro hcalm ⟨hl, hd, -⟩
      exact not_lt.mp fun hlt => hcalm ⟨hl, hd, hlt⟩
  · rintro s rfl
    rfl
  · intro tr l s _ _ hnone
    cases l with
    | issue t a draw t1 t2 userTimeOut => cases hnone
    | caller t locked =>
      have hsame := callerStep_sameLoops X t locked s
      rw [update_caller, requestShelf, requestShelf, hsame.requestQueue, hsame.pushed, hsame.popped]
    | driver M =>
      rw [update_driver]
      refine driverStep_requestShelf M fun hd => ?_
      by_contra hq
      rw [(hlabel s (.driver M)).mpr ⟨⟨M, rfl⟩, hd, hq⟩] at hnone
      cases hnone
    | session dangling M =>
      have hframe := sessionStep_frame X dangling M s
      rw [update_session, requestShelf, requestShelf, hframe.1, hframe.2.2.2.2,
        (sessionStep_sameCalls X dangling M s).pushed]
  · intro tr l s b hr _ hb
    cases l with
    | issue t a draw t1 t2 userTimeOut =>
      cases hb
      -- the record is pushed at a fresh address
      refine ⟨fun hin => ?_, rfl⟩
      exact absurd (addr_lt_fresh ⟨tr, hr⟩ _ hin) (lt_irrefl _)
    | caller t locked => cases hb
    | driver M =>
      have hpop : b = .pop := by
        cases hd : s.driver <;> simp_all [requestLabel]
      subst hpop
      rcases (hlabel s (.driver M)).mp hb with ⟨-, hd, hq⟩
      rw [update_driver]
      exact ⟨hq, driverStep_requestShelf_pop M hd hq⟩
    | session dangling M => cases hb

end Requests

/-! ## Tasks -/

namespace ThreadPool

variable {n : Nat} {U Task : Type}

/-- The queue of a pool as a shelf. -/
def taskShelf (s : State n U Task) : Shelf.State (Submission Task) :=
  ⟨s.taskQueue, s.submitted, s.taken⟩

/-- What a step is to the queue of a pool. -/
def taskLabel (s : State n U Task) : Label n U Task → Option (Shelf.Label (Submission Task))
  | .client u =>
    match s.clients u with
    | .pushing i task => if i < n then some (.push ⟨s.submitted.length, task⟩) else none
    | _ => none
  | .worker w _ =>
    match (s.workers w).pc with
    | .popping => if s.taskQueue = [] then none else some .pop
    | _ => none
  | _ => none

/-- A worker pops while more than one task waits. -/
def Overtakes (s : State n U Task) (l : Label n U Task) : Prop :=
  (∃ w throws, l = .worker w throws ∧ (s.workers w).pc = .popping) ∧ 1 < s.taskQueue.length

@[simp] theorem taskShelf_setWorker (w : Fin n) (x : Worker Task) (s : State n U Task) :
    taskShelf (setWorker w x s) = taskShelf s := rfl

/-- A step of a worker that pops nothing leaves the queue as it is. -/
theorem workerStep_taskShelf {w : Fin n} (throws : Bool) {s : State n U Task}
    (h : (s.workers w).pc = .popping → s.taskQueue = []) :
    taskShelf (workerStep w throws s) = taskShelf s := by
  cases hpc : (s.workers w).pc with
  | popping =>
    simp only [workerStep, hpc, h hpc]
    rfl
  | running task =>
    simp only [workerStep, hpc]
    rfl
  | testingStop => simp only [workerStep, hpc, taskShelf_setWorker]
  | testingEmpty => simp only [workerStep, hpc, taskShelf_setWorker]
  | locking => simp only [workerStep, hpc, taskShelf_setWorker]
  | waiting => simp only [workerStep, hpc, taskShelf_setWorker]
  | parked => simp only [workerStep, hpc, taskShelf_setWorker]
  | woken => simp only [workerStep, hpc, taskShelf_setWorker]
  | unlocking => simp only [workerStep, hpc, taskShelf_setWorker]
  | ended => simp only [workerStep, hpc]

theorem workerStep_taskShelf_pop {w : Fin n} (throws : Bool) {s : State n U Task}
    (hpc : (s.workers w).pc = .popping) (hq : s.taskQueue ≠ []) :
    taskShelf (workerStep w throws s) = Shelf.shelf.update .pop (taskShelf s) := by
  rcases pop_of_ne_nil hq with ⟨task, hpop, hlast⟩
  simp only [workerStep, hpc, hpop, taskShelf_setWorker]
  simp only [taskShelf, Shelf.shelf, hlast, Option.toList]

theorem taskLabel_worker_iff {s : State n U Task} {w : Fin n} {throws : Bool}
    {b : Shelf.Label (Submission Task)} : taskLabel s (.worker w throws) = some b ↔
      (s.workers w).pc = .popping ∧ s.taskQueue ≠ [] ∧ b = .pop := by
  cases hpc : (s.workers w).pc <;> simp [taskLabel, hpc, eq_comm]

theorem taskLabel_client_iff {s : State n U Task} {u : U} {b : Shelf.Label (Submission Task)} :
    taskLabel s (.client u) = some b ↔
      ∃ i task, s.clients u = .pushing i task ∧ i < n ∧ b = .push ⟨s.submitted.length, task⟩ := by
  cases hpc : s.clients u <;> simp [taskLabel, hpc, eq_comm]

variable [DecidableEq U]

@[simp] theorem taskShelf_setClient (u : U) (pc : ClientPc n Task) (s : State n U Task) :
    taskShelf (setClient u pc s) = taskShelf s := rfl

/-- A step of a client that pushes nothing leaves the queue as it is. -/
theorem clientStep_taskShelf {u : U} {s : State n U Task}
    (h : ∀ i task, s.clients u = .pushing i task → ¬ i < n) :
    taskShelf (clientStep u s) = taskShelf s := by
  cases hpc : s.clients u with
  | pushing i task => simp only [clientStep, hpc, dif_neg (h i task hpc), taskShelf_setClient]
  | idle => simp only [clientStep, hpc]
  | notifying w => simp only [clientStep, hpc, taskShelf_setClient, taskShelf_setWorker]
  | locking w => simp only [clientStep, hpc, taskShelf_setClient, taskShelf_setWorker]
  | notifyingLocked w => simp only [clientStep, hpc, taskShelf_setClient, taskShelf_setWorker]
  | unlocking w => simp only [clientStep, hpc, taskShelf_setClient, taskShelf_setWorker]
  | stopping i =>
    simp only [clientStep, hpc]
    split
    · rw [taskShelf_setClient, taskShelf_setWorker]
    · rw [taskShelf_setClient]
  | notifyingStopped w => simp only [clientStep, hpc, taskShelf_setClient, taskShelf_setWorker]
  | joining i =>
    simp only [clientStep, hpc]
    split
    · rw [taskShelf_setClient]
    · rw [taskShelf_setClient]
  | lost => simp only [clientStep, hpc]

theorem clientStep_taskShelf_push {u : U} {s : State n U Task} {i : Nat} {task : Task}
    (hpc : s.clients u = .pushing i task) (hi : i < n) :
    taskShelf (clientStep u s) =
      Shelf.shelf.update (.push ⟨s.submitted.length, task⟩) (taskShelf s) := by
  simp only [clientStep, hpc, dif_pos hi]
  rfl

/-- A step that is nothing to the queue leaves it as it is. -/
theorem taskShelf_stays {s : State n U Task} {l : Label n U Task} (h : taskLabel s l = none) :
    taskShelf ((pool n U Task).update l s) = taskShelf s := by
  cases l with
  | submitTask u task draw =>
    simp only [pool]
    split
    · rw [taskShelf_setClient]
    · rfl
  | shutDown u => rfl
  | shutDownAfterWorkers u => rfl
  | client u =>
    refine clientStep_taskShelf fun i task hpc hi => ?_
    rw [taskLabel_client_iff.mpr ⟨i, task, hpc, hi, rfl⟩] at h
    cases h
  | worker w throws =>
    refine workerStep_taskShelf throws fun hpc => ?_
    by_contra hq
    rw [taskLabel_worker_iff.mpr ⟨hpc, hq, rfl⟩] at h
    cases h

/-- A step that is a push or a pop to the queue. -/
theorem taskShelf_moves {s : State n U Task} {l : Label n U Task}
    {b : Shelf.Label (Submission Task)} (h : taskLabel s l = some b) :
    taskShelf ((pool n U Task).update l s) = Shelf.shelf.update b (taskShelf s) ∧
      ((∃ task, b = .push ⟨s.submitted.length, task⟩) ∨ b = .pop ∧ s.taskQueue ≠ []) := by
  cases l with
  | submitTask u task draw => cases h
  | shutDown u => cases h
  | shutDownAfterWorkers u => cases h
  | client u =>
    rcases taskLabel_client_iff.mp h with ⟨i, task, hpc, hi, rfl⟩
    exact ⟨clientStep_taskShelf_push hpc hi, Or.inl ⟨task, rfl⟩⟩
  | worker w throws =>
    rcases taskLabel_worker_iff.mp h with ⟨hpc, hq, rfl⟩
    exact ⟨workerStep_taskShelf_pop throws hpc hq, Or.inr ⟨rfl, hq⟩⟩

/-- The tasks are numbered in the order of submission. -/
theorem number_lt {s : State n U Task} (h : Reachable (pool n U Task) s) :
    ∀ x ∈ s.submitted, x.number < s.submitted.length := by
  refine reachable_invariant
    (fun s => ∀ x ∈ (taskShelf s).pushed, x.number < (taskShelf s).pushed.length) ?_ ?_ h
  · rintro s rfl x hx
    cases hx
  · intro l s _ hi
    cases hb : taskLabel s l with
    | none =>
      rw [taskShelf_stays hb]
      exact hi
    | some b =>
      rcases taskShelf_moves hb with ⟨heq, ⟨task, rfl⟩ | ⟨rfl, -⟩⟩
      · rw [heq]
        have hlen :
            (Shelf.shelf.update (.push ⟨s.submitted.length, task⟩) (taskShelf s)).pushed.length =
              s.submitted.length + 1 := by
          simp [Shelf.shelf, taskShelf]
        rw [hlen]
        have hold := fun x hx => Nat.lt_succ_of_lt (hi x hx)
        exact List.forall_mem_append.mpr
          ⟨hold, List.forall_mem_singleton.mpr (Nat.lt_succ_self _)⟩
      · rw [heq]
        exact hi

/-- In a run, a step that is a push or a pop to the queue is one of the shelf. -/
theorem taskShelf_fires (tr : List (State n U Task × Label n U Task)) (l : Label n U Task)
    (s : State n U Task) (b : Shelf.Label (Submission Task)) (hr : Run (pool n U Task) tr s)
    (hb : taskLabel s l = some b) :
    Shelf.shelf.guard b (taskShelf s) ∧
      taskShelf ((pool n U Task).update l s) = Shelf.shelf.update b (taskShelf s) := by
  rcases taskShelf_moves hb with ⟨heq, ⟨task, rfl⟩ | ⟨rfl, hq⟩⟩
  · -- the task is pushed with a number not used before
    exact ⟨fun hin => absurd (number_lt ⟨tr, hr⟩ _ hin) (lt_irrefl _), heq⟩
  · exact ⟨hq, heq⟩

/-- The queue of a pool runs as a shelf does. -/
theorem run_taskShelf {tr : List (State n U Task × Label n U Task)} {s : State n U Task}
    (h : Run (pool n U Task) tr s) :
    Run Shelf.shelf (tr.filterMap (mapStep taskShelf taskLabel)) (taskShelf s) := by
  refine run_simulates taskShelf taskLabel ?_ (fun _ _ _ _ _ => taskShelf_stays)
    (fun tr l s b hr _ hb => taskShelf_fires tr l s b hr hb) h
  rintro s rfl
  rfl

/-- A pool serves its tasks in order as long as it overtakes none. -/
theorem tasks_in_order_iff {tr : List (State n U Task × Label n U Task)} {s : State n U Task}
    (h : Run (pool n U Task) tr s) :
    s.taken <+: s.submitted ↔ ∀ p ∈ tr, ¬ Overtakes p.1 p.2 := by
  have hshelf := Shelf.prefix_iff_of_simulates taskShelf taskLabel ?_
    (fun _ _ _ _ _ => taskShelf_stays) (fun tr l s b hr _ hb => taskShelf_fires tr l s b hr hb) h
  · -- a crowded pop of the shelf is an overtaking step of a worker
    refine hshelf.trans (forall₂_congr fun p hp => ?_)
    constructor
    · rintro hcalm ⟨⟨w, throws, hl, hpc⟩, hlt⟩
      have hne : p.1.taskQueue ≠ [] := by
        rintro hnil
        simp [hnil] at hlt
      refine absurd hlt (not_lt.mpr (hcalm ?_))
      rw [hl]
      exact taskLabel_worker_iff.mpr ⟨hpc, hne, rfl⟩
    · intro hcalm hpop
      refine not_lt.mp fun hlt => hcalm ⟨?_, hlt⟩
      cases hl : p.2 with
      | submitTask u task draw => simp [taskLabel, hl] at hpop
      | shutDown u => simp [taskLabel, hl] at hpop
      | shutDownAfterWorkers u => simp [taskLabel, hl] at hpop
      | client u =>
        rw [hl] at hpop
        rcases taskLabel_client_iff.mp hpop with ⟨i, task, -, -, hb⟩
        cases hb
      | worker w throws =>
        rw [hl] at hpop
        exact ⟨w, throws, rfl, (taskLabel_worker_iff.mp hpop).1⟩
  · rintro s rfl
    rfl

end ThreadPool

/-! ## Order of service -/

/-- **Queued work in order.** In every run, for any number of threads, requests
leave the driver in the order in which they were pushed, and tasks leave the
queue of a pool in the order in which they were submitted, exactly when no pop
of the run found more than one item waiting. -/
theorem served_in_order_iff (X : Externals) (T U Task : Type) [DecidableEq T] [DecidableEq U]
    (n : Nat) :
    (∀ (tr : List (State T × Label T)) (s : State T), Run (system X T) tr s →
      (s.popped <+: s.pushed ↔ ∀ p ∈ tr, ¬ Overtakes p.1 p.2)) ∧
    ∀ (tr : List (ThreadPool.State n U Task × ThreadPool.Label n U Task))
      (s : ThreadPool.State n U Task), Run (ThreadPool.pool n U Task) tr s →
        (s.taken <+: s.submitted ↔ ∀ p ∈ tr, ¬ ThreadPool.Overtakes p.1 p.2) :=
  ⟨fun _ _ => requests_in_order_iff, fun _ _ => ThreadPool.tasks_in_order_iff⟩

/-- Two threads issue a request each before the driver pops one. -/
def twoRequests : List (Label Bool) :=
  let a :=
    FieldArgs.insert (ascii "k") (ascii "v") (ascii "insert") (ascii "db") (ascii "u") (ascii "c")
  [.issue false a (fun _ => 0) 0 0 10, .issue true a (fun _ => 1) 0 0 10,
    .driver .zeros, .driver .zeros]

/-- Two clients submit a task each before the only worker pops one. -/
def twoTasks : List (ThreadPool.Label 1 Bool Nat) :=
  [.submitTask false 7 fun _ => 0, .submitTask true 8 fun _ => 0, .client false, .client true,
    .worker 0 false, .worker 0 false, .worker 0 false]

/-- In both cases the second one is served first. -/
theorem second_served_first :
    let X : Externals := ⟨fun _ => none, fun _ => 0⟩
    let s := after (system X Bool) twoRequests {}
    let s' := after (ThreadPool.pool 1 Bool Nat) twoTasks {}
    (Run (system X Bool) (trace (system X Bool) twoRequests {}) s ∧
      s.pushed.map SharedPtr.addr = [0, 1] ∧ s.popped.map SharedPtr.addr = [1] ∧
      ¬ s.popped <+: s.pushed) ∧
    Run (ThreadPool.pool 1 Bool Nat) (trace (ThreadPool.pool 1 Bool Nat) twoTasks {}) s' ∧
      s'.submitted = [⟨0, 7⟩, ⟨1, 8⟩] ∧ s'.taken = [⟨1, 8⟩] ∧ ¬ s'.taken <+: s'.submitted := by
  refine ⟨⟨run_of_fires rfl (by decide +kernel), by decide +kernel, by decide +kernel, fun h => ?_⟩,
    run_of_fires rfl (by decide +kernel), by decide +kernel, by decide +kernel, by decide +kernel⟩
  -- comparing addresses is enough, and cheaper than comparing records
  have haddr := h.map SharedPtr.addr
  revert haddr
  decide +kernel

theorem second_overtakes_first :
    ∃ p ∈ trace (ThreadPool.pool 1 Bool Nat) twoTasks {}, ThreadPool.Overtakes p.1 p.2 := by
  have hrun : Run (ThreadPool.pool 1 Bool Nat) (trace (ThreadPool.pool 1 Bool Nat) twoTasks {})
      (after (ThreadPool.pool 1 Bool Nat) twoTasks {}) := run_of_fires rfl (by decide +kernel)
  have hiff := (served_in_order_iff ⟨fun _ => none, fun _ => 0⟩ Bool Bool Nat 1).2 _ _ hrun
  by_contra hnone
  have hpre := hiff.mpr fun p hp hover => hnone ⟨p, hp, hover⟩
  revert hpre
  decide +kernel

end PicoDB
