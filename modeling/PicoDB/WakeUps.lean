import Mathlib.Data.Fintype.Basic
import PicoDB.ThreadPool

/-!
# PicoDB.WakeUps — when a worker of a pool sleeps through its work

A worker looks at its stop flag and at the queue before it takes its mutex, and
parks after that. A task pushed in between, or a flag set in between, is
announced to nobody once the notifies are made. `no_wake_up_lost` says that
this gap is all there is to it: as long as no worker parks after the last
notify for it (`Misses`), no wake-up is lost.
-/

namespace PicoDB.ThreadPool

open ConcurrentVector Lts

variable {n : Nat} {U Task : Type}

/-! ## Sleeping through -/

/-- The client is in a call of `submitTask` or `shutDown`. -/
def ClientPc.inCall : ClientPc n Task → Bool
  | .idle => false
  | .joining _ => false
  | _ => true

/-- No call of `submitTask` or `shutDown` is in progress. -/
def Quiet (s : State n U Task) : Prop := ∀ u, (s.clients u).inCall = false

/-- Nobody sleeps who has something to do. -/
structure Awake (s : State n U Task) : Prop where
  tasks : s.taskQueue ≠ [] → ∃ w, (s.workers w).pc ≠ .parked
  stops : ∀ w, (s.workers w).stopFlag_ = true → (s.workers w).pc ≠ .parked

/-- The client is still to notify worker `w`. -/
def ClientPc.notifies (w : Fin n) : ClientPc n Task → Bool
  | .pushing i _ => i == w
  | .notifying v => v == w
  | .locking v => v == w
  | .notifyingLocked v => v == w
  -- `shutDown` goes through the workers in order
  | .stopping i => i ≤ w
  | .notifyingStopped v => v ≤ w
  | _ => false

/-- A worker parks too late, after the last notify that is due to it: its stop
flag is set, or a task is queued and all the others are parked. -/
def Misses (s : State n U Task) : Label n U Task → Prop
  | .worker w _ =>
    (s.workers w).pc = .waiting ∧
      ((s.workers w).stopFlag_ = true ∧ (∀ u, (s.clients u).notifies w = false) ∨
        s.taskQueue ≠ [] ∧ (∀ v, v ≠ w → (s.workers v).pc = .parked) ∧
          ∀ u v, (s.clients u).notifies v = false)
  | _ => False

instance [DecidableEq Task] [Fintype U] (s : State n U Task) (l : Label n U Task) :
    Decidable (Misses s l) :=
  match l with
  | .worker w _ =>
    inferInstanceAs (Decidable ((s.workers w).pc = .waiting ∧
      ((s.workers w).stopFlag_ = true ∧ (∀ u, (s.clients u).notifies w = false) ∨
        s.taskQueue ≠ [] ∧ (∀ v, v ≠ w → (s.workers v).pc = .parked) ∧
          ∀ u v, (s.clients u).notifies v = false)))
  | .submitTask _ _ _ => .isFalse id
  | .shutDown _ => .isFalse id
  | .shutDownAfterWorkers _ => .isFalse id
  | .client _ => .isFalse id

/-! ## Notifies that are due -/

/-- Whoever sleeps although there is something to do is still to be notified. -/
structure Due (s : State n U Task) : Prop where
  tasks : s.taskQueue ≠ [] →
    (∃ w, (s.workers w).pc ≠ .parked) ∨ ∃ u w, (s.clients u).notifies w = true
  stops : ∀ w, (s.workers w).stopFlag_ = true → (s.workers w).pc = .parked →
    ∃ u, (s.clients u).notifies w = true

theorem notifies_eq_false {s : State n U Task} (hquiet : Quiet s) (u : U) (w : Fin n) :
    (s.clients u).notifies w = false := by
  have hu := hquiet u
  cases hpc : s.clients u <;> simp_all [ClientPc.inCall, ClientPc.notifies]

theorem awake_of_due {s : State n U Task} (h : Due s) (hquiet : Quiet s) : Awake s := by
  constructor
  · intro hq
    rcases h.tasks hq with hw | ⟨u, w, hu⟩
    · exact hw
    · rw [notifies_eq_false hquiet] at hu
      cases hu
  · intro w hflag hpc
    obtain ⟨u, hu⟩ := h.stops w hflag hpc
    rw [notifies_eq_false hquiet] at hu
    cases hu

theorem init_due : Due ({} : State n U Task) where
  tasks h := absurd rfl h
  stops w h := by cases h

/-! ### A step of a worker -/

/-- The only step that parks is the one that waits. -/
theorem parked_of_workerStep {w : Fin n} {throws : Bool} {s : State n U Task}
    (h : ((workerStep w throws s).workers w).pc = .parked) : (s.workers w).pc = .waiting := by
  cases hpc : (s.workers w).pc with
  | waiting => rfl
  | testingStop =>
    simp only [workerStep, hpc, setWorker, Function.update_self] at h
    split at h <;> cases h
  | testingEmpty =>
    simp only [workerStep, hpc, setWorker, Function.update_self] at h
    split at h <;> cases h
  | popping =>
    simp only [workerStep, hpc] at h
    split at h <;> simp [setWorker] at h
  | running task =>
    simp only [workerStep, hpc, setWorker, Function.update_self] at h
    split at h <;> cases h
  | locking => simp [workerStep, hpc, setWorker] at h
  | parked => simp [workerStep, hpc, setWorker] at h
  | woken => simp [workerStep, hpc, setWorker] at h
  | unlocking => simp [workerStep, hpc, setWorker] at h
  | ended => simp [workerStep, hpc] at h

/-- A worker leaves the others alone, keeps its flag and adds no task. -/
theorem workerStep_frame (w : Fin n) (throws : Bool) (s : State n U Task) :
    (∀ v, v ≠ w → (workerStep w throws s).workers v = s.workers v) ∧
      (∀ v, ((workerStep w throws s).workers v).stopFlag_ = (s.workers v).stopFlag_) ∧
      (s.taskQueue = [] → (workerStep w throws s).taskQueue = []) := by
  have hset : ∀ (x : Worker Task) (s' : State n U Task), s'.workers = s.workers →
      (s.taskQueue = [] → s'.taskQueue = []) → x.stopFlag_ = (s.workers w).stopFlag_ →
      (∀ v, v ≠ w → (setWorker w x s').workers v = s.workers v) ∧
        (∀ v, ((setWorker w x s').workers v).stopFlag_ = (s.workers v).stopFlag_) ∧
        (s.taskQueue = [] → (setWorker w x s').taskQueue = []) := by
    intro x s' hs' hq hx
    refine ⟨fun v hv => by simp [setWorker, hs', hv], fun v => ?_, hq⟩
    by_cases hv : v = w
    · subst hv
      simpa [setWorker] using hx
    · simp [setWorker, hs', hv]
  cases hpc : (s.workers w).pc with
  | ended =>
    simp only [workerStep, hpc]
    exact ⟨fun _ _ => trivial, fun _ => trivial, id⟩
  | popping =>
    simp only [workerStep, hpc]
    split
    · rename_i task rest hpop
      refine hset _ _ rfl (fun hnil => ?_) rfl
      rw [hnil] at hpop
      cases hpop
    · exact hset _ _ rfl id rfl
  | running task =>
    simp only [workerStep, hpc]
    exact hset _ _ rfl id rfl
  | _ =>
    simp only [workerStep, hpc]
    exact hset _ s rfl id rfl

theorem workerStep_due {w : Fin n} {throws : Bool} {s : State n U Task} (h : Due s)
    (hm : ¬ Misses s (.worker w throws)) : Due (workerStep w throws s) := by
  obtain ⟨hother, hflag, hqueue⟩ := workerStep_frame w throws s
  constructor
  · intro hq
    have hq' : s.taskQueue ≠ [] := fun hnil => hq (hqueue hnil)
    rw [clients_workerStep]
    by_cases hparks : ((workerStep w throws s).workers w).pc = .parked
    · -- another worker is up or a notify is due, or this worker misses the task
      by_contra hnone
      rw [not_or] at hnone
      refine hm ⟨parked_of_workerStep hparks, Or.inr ⟨hq', fun v hv => ?_, fun u v => ?_⟩⟩
      · by_contra hup
        exact hnone.1 ⟨v, by rwa [hother v hv]⟩
      · by_contra hdue
        exact hnone.2 ⟨u, v, by simpa using hdue⟩
    · exact Or.inl ⟨w, hparks⟩
  · intro v hv hpc
    rw [hflag] at hv
    rw [clients_workerStep]
    by_cases hvw : v = w
    · subst hvw
      by_contra hnone
      refine hm ⟨parked_of_workerStep hpc, Or.inl ⟨hv, fun u => ?_⟩⟩
      by_contra hdue
      exact hnone ⟨u, by simpa using hdue⟩
    · rw [hother v hvw] at hpc
      exact h.stops v hv hpc

/-! ### A step of a client -/

theorem notifyAll_pc_ne (x : Worker Task) : x.notifyAll.pc ≠ .parked := by
  unfold Worker.notifyAll
  split
  · simp
  · assumption

@[simp] theorem notifyAll_stopFlag (x : Worker Task) : x.notifyAll.stopFlag_ = x.stopFlag_ := by
  unfold Worker.notifyAll
  split <;> rfl

/-- What a client that goes on to `pc` does to the workers and the queue: it
parks nobody, what it sets or pushes it is still to announce, and a notify it
was to make is made or still to come. -/
structure Tells (u : U) (s s' : State n U Task) : Prop where
  parked : ∀ v, (s'.workers v).pc = .parked → (s.workers v).pc = .parked
  flag : ∀ v, (s'.workers v).stopFlag_ = true →
    (s.workers v).stopFlag_ = true ∨ (s'.clients u).notifies v = true
  queue : s'.taskQueue = s.taskQueue ∨ ∃ w, (s'.clients u).notifies w = true
  keeps : ∀ v, (s.clients u).notifies v = true →
    (s'.workers v).pc ≠ .parked ∨ (s'.clients u).notifies v = true

/-- A client that does nothing. -/
theorem tells_refl (u : U) (s : State n U Task) : Tells u s s where
  parked _ hv := hv
  flag _ hv := Or.inl hv
  queue := Or.inl rfl
  keeps _ hv := Or.inr hv

variable [DecidableEq U]

/-- A client that leaves workers and queue alone and forgets no notify. -/
theorem tells_setClient {u : U} {s : State n U Task} {pc : ClientPc n Task}
    (h : ∀ v, (s.clients u).notifies v = true → pc.notifies v = true) :
    Tells u s (setClient u pc s) where
  parked _ hv := hv
  flag _ hv := Or.inl hv
  queue := Or.inl rfl
  keeps v hv := Or.inr (by simpa [setClient] using h v hv)

/-- A client that changes worker `w` only. -/
theorem tells_setWorker {u : U} {s : State n U Task} {w : Fin n} {x : Worker Task}
    {pc : ClientPc n Task} (hpc : x.pc = .parked → (s.workers w).pc = .parked)
    (hflag : x.stopFlag_ = true → (s.workers w).stopFlag_ = true ∨ pc.notifies w = true)
    (hup : ∀ v, (s.clients u).notifies v = true →
      v = w ∧ x.pc ≠ .parked ∨ pc.notifies v = true) :
    Tells u s (setClient u pc (setWorker w x s)) := by
  refine ⟨fun v hv => ?_, fun v hv => ?_, Or.inl rfl, fun v hv => ?_⟩
  · by_cases hvw : v = w
    · subst hvw
      exact hpc (by simpa [setClient, setWorker] using hv)
    · simpa [setClient, setWorker, hvw] using hv
  · by_cases hvw : v = w
    · subst hvw
      simpa [setClient] using hflag (by simpa [setClient, setWorker] using hv)
    · exact Or.inl (by simpa [setClient, setWorker, hvw] using hv)
  · rcases hup v hv with ⟨rfl, hx⟩ | hdue
    · exact Or.inl (by simpa [setClient, setWorker] using hx)
    · exact Or.inr (by simpa [setClient] using hdue)

/-- A client that notifies worker `w`. -/
theorem tells_notifyAll {u : U} {s : State n U Task} {w : Fin n} {pc : ClientPc n Task}
    (hup : ∀ v, (s.clients u).notifies v = true → v = w ∨ pc.notifies v = true) :
    Tells u s (setClient u pc (setWorker w (s.workers w).notifyAll s)) := by
  refine tells_setWorker (fun h => absurd h (notifyAll_pc_ne _)) (fun h => ?_) (fun v hv => ?_)
  · rw [notifyAll_stopFlag] at h
    exact Or.inl h
  · exact (hup v hv).imp_left fun hvw => ⟨hvw, notifyAll_pc_ne _⟩

theorem clientStep_tells (u : U) (s : State n U Task) : Tells u s (clientStep u s) := by
  cases hpc : s.clients u with
  | idle =>
    simp only [clientStep, hpc]
    exact tells_refl u s
  | lost =>
    simp only [clientStep, hpc]
    exact tells_refl u s
  | pushing i task =>
    simp only [clientStep, hpc]
    split
    · rename_i hi
      refine ⟨fun _ => id, fun _ => Or.inl, Or.inr ⟨⟨i, hi⟩, ?_⟩, fun v hv => Or.inr ?_⟩
      · simp [setClient, ClientPc.notifies]
      · simpa [setClient, hpc, ClientPc.notifies, Fin.ext_iff] using hv
    · rename_i hi
      refine tells_setClient fun v hv => ?_
      have hiv : i = v := by simpa [hpc, ClientPc.notifies] using hv
      exact absurd (hiv ▸ v.isLt) hi
  | notifying w =>
    simp only [clientStep, hpc]
    refine tells_notifyAll fun v hv => Or.inl ?_
    have hwv : w = v := by simpa [hpc, ClientPc.notifies] using hv
    exact hwv.symm
  | locking w =>
    simp only [clientStep, hpc]
    exact tells_setWorker id Or.inl fun v hv => Or.inr (by simpa [hpc, ClientPc.notifies] using hv)
  | notifyingLocked w =>
    simp only [clientStep, hpc]
    refine tells_notifyAll fun v hv => Or.inl ?_
    have hwv : w = v := by simpa [hpc, ClientPc.notifies] using hv
    exact hwv.symm
  | unlocking w =>
    simp only [clientStep, hpc]
    exact tells_setWorker id Or.inl fun v hv => by simp [hpc, ClientPc.notifies] at hv
  | stopping i =>
    simp only [clientStep, hpc]
    split
    · refine tells_setWorker id (fun _ => Or.inr ?_) fun v hv => Or.inr ?_
      · simp [ClientPc.notifies]
      · simpa [hpc, ClientPc.notifies, Fin.le_def] using hv
    · rename_i hi
      refine tells_setClient fun v hv => ?_
      have hiv : i ≤ v := by simpa [hpc, ClientPc.notifies] using hv
      exact absurd (lt_of_le_of_lt hiv v.isLt) hi
  | notifyingStopped w =>
    simp only [clientStep, hpc]
    refine tells_notifyAll fun v hv => ?_
    have hwv : w ≤ v := by simpa [hpc, ClientPc.notifies] using hv
    rcases hwv.eq_or_lt with heq | hlt
    · exact Or.inl heq.symm
    · exact Or.inr (by simpa [ClientPc.notifies] using Fin.lt_def.1 hlt)
  | joining i =>
    simp only [clientStep, hpc]
    split
    all_goals exact tells_setClient fun v hv => by simp [hpc, ClientPc.notifies] at hv

theorem clientStep_due (u : U) {s : State n U Task} (h : Due s) : Due (clientStep u s) := by
  have htells := clientStep_tells u s
  -- a notify that was due is made now, or is still due
  have hkeeps : ∀ u' w, (s.clients u').notifies w = true →
      ((clientStep u s).workers w).pc ≠ .parked ∨
        ∃ u', ((clientStep u s).clients u').notifies w = true := by
    intro u' w hu'
    by_cases huu : u' = u
    · subst huu
      exact (htells.keeps w hu').imp_right fun hdue => ⟨_, hdue⟩
    · exact Or.inr ⟨u', by rwa [clients_clientStep_of_ne huu]⟩
  constructor
  · intro hq
    rcases htells.queue with hqueue | ⟨w, hw⟩
    · rw [hqueue] at hq
      rcases h.tasks hq with ⟨w, hw⟩ | ⟨u', w, hu'⟩
      · exact Or.inl ⟨w, fun hpc => hw (htells.parked w hpc)⟩
      · rcases hkeeps u' w hu' with hup | ⟨u'', hu''⟩
        · exact Or.inl ⟨w, hup⟩
        · exact Or.inr ⟨u'', w, hu''⟩
    · exact Or.inr ⟨u, w, hw⟩
  · intro w hflag hpc
    rcases htells.flag w hflag with hset | hnew
    · obtain ⟨u', hu'⟩ := h.stops w hset (htells.parked w hpc)
      exact (hkeeps u' w hu').resolve_left (not_not_intro hpc)
    · exact ⟨u, hnew⟩

/-- A client that begins a call gives no notify up. -/
theorem setClient_due {u : U} {s : State n U Task} (h : Due s) (hidle : isIdle u s = true)
    (pc : ClientPc n Task) : Due (setClient u pc s) := by
  have hu : s.clients u = .idle := by
    unfold isIdle at hidle
    split at hidle
    · assumption
    · cases hidle
  have hkeeps : ∀ u' w, (s.clients u').notifies w = true →
      ((setClient u pc s).clients u').notifies w = true := by
    intro u' w hu'
    have hne : u' ≠ u := by
      rintro rfl
      rw [hu] at hu'
      cases hu'
    simpa [setClient, hne] using hu'
  constructor
  · intro hq
    rcases h.tasks hq with hw | ⟨u', w, hu'⟩
    · exact Or.inl hw
    · exact Or.inr ⟨u', w, hkeeps u' w hu'⟩
  · intro w hflag hpc
    obtain ⟨u', hu'⟩ := h.stops w hflag hpc
    exact ⟨u', hkeeps u' w hu'⟩

/-! ## Runs -/

/-- Step lemma. -/
theorem step_due (l : Label n U Task) {s : State n U Task} (hg : (pool n U Task).guard l s)
    (hm : ¬ Misses s l) (h : Due s) : Due ((pool n U Task).update l s) := by
  cases l with
  | submitTask u task draw =>
    simp only [pool]
    split
    · exact setClient_due h hg _
    · exact h
  | shutDown u => exact setClient_due h hg _
  | shutDownAfterWorkers u => exact setClient_due h hg _
  | client u => exact clientStep_due u h
  | worker w throws => exact workerStep_due h hm

/-- A worker that parks too late sleeps through its work. -/
theorem not_awake_of_misses {s : State n U Task} {l : Label n U Task} (hm : Misses s l) :
    ¬ Awake ((pool n U Task).update l s) := by
  cases l with
  | worker w throws =>
    rcases hm with ⟨hpc, hwork⟩
    have hstep : (pool n U Task).update (.worker w throws) s =
        setWorker w { s.workers w with pc := .parked, locked := false } s := by
      simp only [pool, workerStep, hpc]
    rw [hstep]
    intro hawake
    rcases hwork with ⟨hflag, -⟩ | ⟨hq, hothers, -⟩
    · exact hawake.stops w (by simpa [setWorker] using hflag) (by simp [setWorker])
    · obtain ⟨v, hv⟩ := hawake.tasks hq
      by_cases hvw : v = w
      · subst hvw
        simp [setWorker] at hv
      · exact hv (by simpa [setWorker, hvw] using hothers v hvw)
  | submitTask u task draw => exact hm.elim
  | shutDown u => exact hm.elim
  | shutDownAfterWorkers u => exact hm.elim
  | client u => exact hm.elim

/-- **Wake-ups.** In every run in which no worker parks too late, nobody sleeps
who has something to do once no call is in progress. A worker that parks too
late while no call is in progress sleeps through its work at once. -/
theorem no_wake_up_lost :
    (∀ (tr : List (State n U Task × Label n U Task)) (s : State n U Task),
      Run (pool n U Task) tr s → (∀ p ∈ tr, ¬ Misses p.1 p.2) → Quiet s → Awake s) ∧
    ∀ (s : State n U Task) (l : Label n U Task), Quiet s → Misses s l →
      Quiet ((pool n U Task).update l s) ∧ ¬ Awake ((pool n U Task).update l s) := by
  constructor
  · intro tr s hrun hm hquiet
    have hdue : Due s := by
      refine run_invariant_of (fun s l => ¬ Misses s l) Due ?_
        (fun l s hg hm hi => step_due l hg hm hi) hrun hm
      rintro s rfl
      exact init_due
    exact awake_of_due hdue hquiet
  · intro s l hquiet hm
    refine ⟨?_, not_awake_of_misses hm⟩
    cases l with
    | worker w throws =>
      intro u
      show ((workerStep w throws s).clients u).inCall = false
      rw [clients_workerStep]
      exact hquiet u
    | submitTask u task draw => exact hm.elim
    | shutDown u => exact hm.elim
    | shutDownAfterWorkers u => exact hm.elim
    | client u => exact hm.elim

/-- The worker of a pool of one. -/
def only : Fin 1 := ⟨0, Nat.one_pos⟩

/-- The only worker has found the queue empty and is about to take its mutex;
a task is submitted, all its notifies included; then the worker parks. -/
def parksOnTask : List (Label 1 Unit Nat) :=
  [.worker only false, .worker only false,
    .submitTask () 7 fun _ => 0, .client (), .client (), .client (), .client (), .client (),
    .worker only false, .worker only false]

/-- The same with `shutDown` in the place of `submitTask`. -/
def parksOnStop : List (Label 1 Unit Nat) :=
  [.worker only false, .worker only false,
    .shutDown (), .client (), .client (), .client (),
    .worker only false, .worker only false]

/-- In both runs the worker sleeps on while nobody is in a call. -/
theorem wake_ups_lost :
    let s := after (pool 1 Unit Nat) parksOnTask {}
    let s' := after (pool 1 Unit Nat) parksOnStop {}
    (Run (pool 1 Unit Nat) (trace (pool 1 Unit Nat) parksOnTask {}) s ∧ Quiet s ∧
      s.taskQueue = [⟨0, 7⟩] ∧ ∀ w, (s.workers w).pc = .parked) ∧
    Run (pool 1 Unit Nat) (trace (pool 1 Unit Nat) parksOnStop {}) s' ∧ Quiet s' ∧
      (s'.workers only).stopFlag_ = true ∧ (s'.workers only).pc = .parked := by
  refine ⟨⟨run_of_fires rfl (by decide +kernel), ?_, by decide +kernel, by decide +kernel⟩,
    run_of_fires rfl (by decide +kernel), ?_, by decide +kernel, by decide +kernel⟩
  · rintro ⟨⟩
    decide +kernel
  · rintro ⟨⟩
    decide +kernel

/-- A worker that parks on an empty queue is woken by the next task. -/
def wakesUp : List (Label 1 Unit Nat) :=
  [.worker only false, .worker only false, .worker only false, .worker only false,
    .submitTask () 7 fun _ => 0, .client (), .client (), .client (), .client (), .client ()]

theorem no_wake_up_lost_one : Awake (after (pool 1 Unit Nat) wakesUp {}) := by
  have hrun : Run (pool 1 Unit Nat) (trace (pool 1 Unit Nat) wakesUp {})
      (after (pool 1 Unit Nat) wakesUp {}) := run_of_fires rfl (by decide +kernel)
  have hquiet : Quiet (after (pool 1 Unit Nat) wakesUp {}) := by
    rintro ⟨⟩
    decide +kernel
  exact no_wake_up_lost.1 _ _ hrun (by decide +kernel) hquiet

end PicoDB.ThreadPool
