import Mathlib.Algebra.BigOperators.Group.Finset.Piecewise
import Mathlib.Algebra.Order.Group.Multiset
import Mathlib.Tactic.Abel
import PicoDB.QueueOrder

/-!
# PicoDB.Tasks — every task of a pool is run once

A task that was pushed is on the shared queue, in the hands of one worker, or
has been run. The first half of this is a fact about shelves
(`Shelf.pushed_perm`); the second half is what a worker does with the task it
popped, whether `run` throws or not.
-/

namespace PicoDB.ThreadPool

open ConcurrentVector Lts

variable {n : Nat} {U Task : Type}

/-! ## In the hands of the workers -/

/-- The task a worker holds. -/
def WorkerPc.hands : WorkerPc Task → Multiset (Submission Task)
  | .running task => {task}
  | _ => 0

@[simp] theorem hands_running (task : Submission Task) :
    (WorkerPc.running task).hands = {task} := rfl

/-- The tasks all workers hold. -/
def inHands (workers : Fin n → Worker Task) : Multiset (Submission Task) :=
  ∑ w, (workers w).pc.hands

/-- What one worker drops and takes changes what all of them hold. -/
theorem inHands_update (workers : Fin n → Worker Task) (w : Fin n) (x : Worker Task) :
    inHands (Function.update workers w x) + (workers w).pc.hands =
      inHands workers + x.pc.hands := by
  have hfun : (fun v => (Function.update workers w x v).pc.hands) =
      Function.update (fun v => (workers v).pc.hands) w x.pc.hands := by
    funext v
    by_cases hv : v = w
    · subst hv
      simp
    · simp [hv]
  rw [inHands, inHands, hfun, Finset.sum_update_of_mem (Finset.mem_univ w),
    Finset.sdiff_singleton_eq_erase,
    ← Finset.add_sum_erase Finset.univ (fun v => (workers v).pc.hands) (Finset.mem_univ w)]
  abel

/-- A worker that neither drops nor takes a task. -/
theorem inHands_update_of_eq {workers : Fin n → Worker Task} {w : Fin n} {x : Worker Task}
    (h : x.pc.hands = (workers w).pc.hands) :
    inHands (Function.update workers w x) = inHands workers := by
  have hset := inHands_update workers w x
  rw [h] at hset
  exact add_right_cancel hset

@[simp] theorem hands_notifyAll (x : Worker Task) : x.notifyAll.pc.hands = x.pc.hands := by
  unfold Worker.notifyAll
  split
  · rename_i h
    rw [h]
    rfl
  · rfl

/-! ## What was taken -/

/-- A task that was taken is in the hands of a worker or has been run. -/
def TakenOnce (s : State n U Task) : Prop :=
  (s.taken : Multiset (Submission Task)) = inHands s.workers + (s.ran : Multiset (Submission Task))

theorem init_takenOnce : TakenOnce ({} : State n U Task) := by
  simp [TakenOnce, inHands, WorkerPc.hands]

/-- A step that only moves a worker on, between tasks. -/
theorem takenOnce_setWorker {s : State n U Task} (h : TakenOnce s) {w : Fin n} {x : Worker Task}
    (hx : x.pc.hands = (s.workers w).pc.hands) : TakenOnce (setWorker w x s) := by
  rw [TakenOnce, setWorker, inHands_update_of_eq hx]
  exact h

/-- Step lemma of the workers: a task goes from the queue into a worker's hands and from
there to those that ran. -/
theorem workerStep_takenOnce (w : Fin n) (throws : Bool) {s : State n U Task} (h : TakenOnce s) :
    TakenOnce (workerStep w throws s) := by
  cases hpc : (s.workers w).pc with
  | testingStop =>
    simp only [workerStep, hpc]
    refine takenOnce_setWorker h ?_
    rw [hpc]
    split <;> rfl
  | testingEmpty =>
    simp only [workerStep, hpc]
    refine takenOnce_setWorker h ?_
    rw [hpc]
    split <;> rfl
  | popping =>
    simp only [workerStep, hpc]
    split
    · -- the task goes from the queue into the hands of `w`
      rename_i task rest hpop
      have htakes := inHands_update s.workers w { s.workers w with pc := .running task }
      simp only [hpc, WorkerPc.hands, add_zero] at htakes
      simp only [TakenOnce, setWorker, htakes, ← Multiset.coe_add, Multiset.coe_singleton]
      rw [h]
      abel
    · exact takenOnce_setWorker h (by rw [hpc]; rfl)
  | running task =>
    -- the task is run, and nobody holds it any more
    have hfree :
        (if throws then WorkerPc.testingStop else .testingEmpty : WorkerPc Task).hands = 0 := by
      split <;> rfl
    have hdrops := inHands_update s.workers w
      { s.workers w with pc := if throws then .testingStop else .testingEmpty }
    rw [hpc, hands_running, hfree, add_zero] at hdrops
    simp only [workerStep, hpc, TakenOnce, setWorker, ← Multiset.coe_add, Multiset.coe_singleton]
    rw [h, ← hdrops]
    abel
  | locking =>
    simp only [workerStep, hpc]
    exact takenOnce_setWorker h (by rw [hpc]; rfl)
  | waiting =>
    simp only [workerStep, hpc]
    exact takenOnce_setWorker h (by rw [hpc]; rfl)
  | parked =>
    simp only [workerStep, hpc]
    exact takenOnce_setWorker h (by rw [hpc]; rfl)
  | woken =>
    simp only [workerStep, hpc]
    exact takenOnce_setWorker h (by rw [hpc]; rfl)
  | unlocking =>
    simp only [workerStep, hpc]
    exact takenOnce_setWorker h (by rw [hpc]; rfl)
  | ended =>
    simp only [workerStep, hpc]
    exact h

variable [DecidableEq U]

/-- Step lemma of the clients, who change nothing about a task that was taken. -/
theorem clientStep_takenOnce (u : U) {s : State n U Task} (h : TakenOnce s) :
    TakenOnce (clientStep u s) := by
  cases hpc : s.clients u with
  | pushing i task =>
    simp only [clientStep, hpc]
    split
    · exact h
    · exact h
  | notifying w =>
    simp only [clientStep, hpc]
    exact takenOnce_setWorker h (hands_notifyAll _)
  | locking w =>
    simp only [clientStep, hpc]
    exact takenOnce_setWorker h rfl
  | notifyingLocked w =>
    simp only [clientStep, hpc]
    exact takenOnce_setWorker h (hands_notifyAll _)
  | unlocking w =>
    simp only [clientStep, hpc]
    exact takenOnce_setWorker h rfl
  | stopping i =>
    simp only [clientStep, hpc]
    split
    · exact takenOnce_setWorker h rfl
    · exact h
  | notifyingStopped w =>
    simp only [clientStep, hpc]
    exact takenOnce_setWorker h (hands_notifyAll _)
  | joining i =>
    simp only [clientStep, hpc]
    split
    · exact h
    · exact h
  | idle =>
    simp only [clientStep, hpc]
    exact h
  | lost =>
    simp only [clientStep, hpc]
    exact h

theorem takenOnce {s : State n U Task} (h : Reachable (pool n U Task) s) : TakenOnce s := by
  refine reachable_invariant TakenOnce ?_ ?_ h
  · rintro s rfl
    exact init_takenOnce
  · intro l s _ hi
    cases l with
    | submitTask u task draw =>
      simp only [pool]
      split
      · exact hi
      · exact hi
    | shutDown u => exact hi
    | shutDownAfterWorkers u => exact hi
    | client u => exact clientStep_takenOnce u hi
    | worker w throws => exact workerStep_takenOnce w throws hi

/-! ## The worker a task is given to -/

/-- Three random digits are a number, and `%` makes it an index. -/
theorem randomIndex_lt (hn : 0 < n) (draw : Fin 3 → Nat) :
    ∃ i, randomIndex n draw = .ok i ∧ i < n := by
  have hne : randomNumber draw ≠ [] := by
    intro hnil
    have hlen := length_randomNumber draw
    rw [hnil] at hlen
    cases hlen
  obtain ⟨v, hv⟩ := Decimal.exists_read hne fun b hb => isDigit_of_mem_randomNumber hb
  have hlt : v < 10 ^ 3 := Decimal.read_lt_pow hv (le_of_eq (length_randomNumber draw))
  have hcast : castDigits (randomNumber draw) (2 ^ 31 - 1) = .ok v := by
    simp only [castDigits, hv]
    exact if_pos (by omega)
  refine ⟨v % n, ?_, Nat.mod_lt v hn⟩
  rw [randomIndex, hcast]
  rfl

/-- The client indexes `workers` within its bounds. -/
def Addresses : ClientPc n Task → Prop
  | .pushing i _ => i < n
  | .lost => False
  | _ => True

theorem clientStep_addresses {u : U} {s : State n U Task} (h : Addresses (s.clients u)) :
    Addresses ((clientStep u s).clients u) := by
  cases hpc : s.clients u with
  | pushing i task =>
    rw [hpc] at h
    have hi : i < n := h
    simp [clientStep, hpc, hi, setClient, Addresses]
  | lost =>
    rw [hpc] at h
    exact h.elim
  | stopping i =>
    simp only [clientStep, hpc]
    split <;> simp [setClient, Addresses]
  | joining i =>
    simp only [clientStep, hpc]
    split <;> simp [setClient, Addresses]
  | idle => simp [clientStep, hpc, Addresses]
  | notifying w => simp [clientStep, hpc, setClient, Addresses]
  | locking w => simp [clientStep, hpc, setClient, Addresses]
  | notifyingLocked w => simp [clientStep, hpc, setClient, Addresses]
  | unlocking w => simp [clientStep, hpc, setClient, Addresses]
  | notifyingStopped w => simp [clientStep, hpc, setClient, Addresses]

/-- Every client addresses a worker that there is, in every reachable state. -/
theorem addresses (hn : 0 < n) {s : State n U Task} (h : Reachable (pool n U Task) s) (u : U) :
    Addresses (s.clients u) := by
  refine reachable_invariant (fun s => ∀ u, Addresses (s.clients u)) ?_ ?_ h u
  · rintro s rfl u
    trivial
  · intro l s _ hi u'
    -- only the client that moves can be somewhere else after the step
    have hset : ∀ (u : U) (pc : ClientPc n Task), Addresses pc →
        Addresses ((setClient u pc s).clients u') := by
      intro u pc hpc
      by_cases hu : u' = u
      · subst hu
        simpa [setClient] using hpc
      · simpa [setClient, hu] using hi u'
    cases l with
    | submitTask u task draw =>
      obtain ⟨i, hdraw, hlt⟩ := randomIndex_lt hn draw
      simp only [pool, hdraw]
      exact hset u _ hlt
    | shutDown u => exact hset u _ trivial
    | shutDownAfterWorkers u => exact hset u _ trivial
    | client u =>
      by_cases hu : u' = u
      · subst hu
        exact clientStep_addresses (hi u')
      · show Addresses ((clientStep u s).clients u')
        rw [clients_clientStep_of_ne hu]
        exact hi u'
    | worker w throws =>
      show Addresses ((workerStep w throws s).clients u')
      rw [clients_workerStep]
      exact hi u'

/-! ## Every task once -/

/-- **Every task is run once.** In every reachable state of a pool with a
worker, for any number of clients: the tasks submitted are those on the queue,
those in the hands of a worker and those already run, each in one place and
once; and `submitTask` only ever addresses a worker that is there. -/
theorem each_task_once (hn : 0 < n) {s : State n U Task} (h : Reachable (pool n U Task) s) :
    (s.submitted : Multiset (Submission Task)) =
        (s.taskQueue : Multiset (Submission Task)) + inHands s.workers + (s.ran : Multiset _) ∧
      ((s.taskQueue : Multiset (Submission Task)) + inHands s.workers +
        (s.ran : Multiset _)).Nodup ∧
      (∀ draw, ∃ i, randomIndex n draw = .ok i ∧ i < n) ∧ ∀ u, Addresses (s.clients u) := by
  rcases h with ⟨tr, hrun⟩
  have hshelf := run_taskShelf hrun
  have hplaces : (s.submitted : Multiset (Submission Task)) =
      (s.taskQueue : Multiset (Submission Task)) + inHands s.workers + (s.ran : Multiset _) := by
    have hpushed : s.submitted.Perm (s.taken ++ s.taskQueue) := Shelf.pushed_perm hshelf
    have htaken : (s.taken : Multiset (Submission Task)) =
        inHands s.workers + (s.ran : Multiset _) :=
      takenOnce ⟨tr, hrun⟩
    calc (s.submitted : Multiset (Submission Task))
        = (s.taken : Multiset _) + (s.taskQueue : Multiset _) := by
          rw [Multiset.coe_add]
          exact Multiset.coe_eq_coe.mpr hpushed
      _ = (s.taskQueue : Multiset _) + inHands s.workers + (s.ran : Multiset _) := by
          rw [htaken]
          abel
  have hnodup : s.submitted.Nodup := Shelf.nodup_pushed hshelf
  refine ⟨hplaces, ?_, randomIndex_lt hn, addresses hn ⟨tr, hrun⟩⟩
  rw [← hplaces]
  exact Multiset.coe_nodup.mpr hnodup

/-- Two workers see the last task; the first one pops it and its `run` throws,
the second one gets a null task. -/
def lastTask : List (Label 2 Unit Nat) :=
  [.submitTask () 7 fun _ => 0, .client (),
    .worker 0 false, .worker 0 false, .worker 1 false, .worker 1 false,
    .worker 0 false, .worker 1 false, .worker 0 true]

theorem each_task_once_last :
    let s := after (pool 2 Unit Nat) lastTask {}
    s.ran = [⟨0, 7⟩] ∧ (s.submitted : Multiset (Submission Nat)) =
      (s.taskQueue : Multiset (Submission Nat)) + inHands s.workers + (s.ran : Multiset _) := by
  have hrun : Run (pool 2 Unit Nat) (trace (pool 2 Unit Nat) lastTask {})
      (after (pool 2 Unit Nat) lastTask {}) := run_of_fires rfl (by decide +kernel)
  exact ⟨by decide +kernel, (each_task_once (by decide) ⟨_, hrun⟩).1⟩

end PicoDB.ThreadPool
