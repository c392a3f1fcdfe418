import PicoDB.Tasks
import PicoDB.WakeUps

/-!
# PicoDB.Drain — how a pool comes to rest

A worker parks only after it has found the queue empty, and while no wake-up is
lost somebody is up as long as a task is queued. So a pool that is left alone
runs all its tasks. To end its workers takes `shutDown`.

* `held`: a mutex that is taken is in somebody's hands.
* `all_tasks_run`: once all calls are over, every task that was submitted is run.
* `joined`: what `shutDownAfterWorkers` has waited for when it returns.
* `ends_iff`: which workers it waits for in vain.
-/

namespace PicoDB.ThreadPool

open ConcurrentVector Lts

variable {n : Nat} {U Task : Type}

/-! ## What a step does to a worker -/

@[simp] theorem workers_setWorker (w : Fin n) (x : Worker Task) (s : State n U Task) (v : Fin n) :
    (setWorker w x s).workers v = if v = w then x else s.workers v :=
  Function.update_apply _ _ _ _

/-- A notify changes where a worker is if it is parked. -/
theorem notifyAll_pc (x : Worker Task) :
    x.notifyAll.pc = x.pc ∨ x.pc = .parked ∧ x.notifyAll.pc = .woken := by
  unfold Worker.notifyAll
  split
  · rename_i h
    exact Or.inr ⟨h, rfl⟩
  · exact Or.inl rfl

@[simp] theorem notifyAll_locked (x : Worker Task) : x.notifyAll.locked = x.locked := by
  unfold Worker.notifyAll
  split <;> rfl

section Clients

variable [DecidableEq U]

@[simp] theorem workers_setClient (u : U) (pc : ClientPc n Task) (s : State n U Task) :
    (setClient u pc s).workers = s.workers := rfl

/-- What a client does to a worker: at most it wakes it up, sets its flag, or
takes or gives back its mutex. -/
theorem clientStep_worker (u : U) (s : State n U Task) (w : Fin n) :
    (((clientStep u s).workers w).pc = (s.workers w).pc ∨
      (s.workers w).pc = .parked ∧ ((clientStep u s).workers w).pc = .woken) ∧
      ((s.workers w).stopFlag_ = true → ((clientStep u s).workers w).stopFlag_ = true) := by
  have hset : ∀ (v : Fin n) (x : Worker Task) (pc : ClientPc n Task),
      (x.pc = (s.workers v).pc ∨ (s.workers v).pc = .parked ∧ x.pc = .woken) →
      ((s.workers v).stopFlag_ = true → x.stopFlag_ = true) →
      (((setClient u pc (setWorker v x s)).workers w).pc = (s.workers w).pc ∨
        (s.workers w).pc = .parked ∧ ((setClient u pc (setWorker v x s)).workers w).pc = .woken) ∧
        ((s.workers w).stopFlag_ = true →
          ((setClient u pc (setWorker v x s)).workers w).stopFlag_ = true) := by
    intro v x pc hpc hflag
    by_cases hw : w = v
    · subst hw
      simpa using ⟨hpc, hflag⟩
    · simp [hw]
  have hsame : (s.workers w).stopFlag_ = true → (s.workers w).stopFlag_ = true := id
  cases hpc : s.clients u with
  | notifying v =>
    simp only [clientStep, hpc]
    exact hset v _ _ (notifyAll_pc _) fun h => by rwa [notifyAll_stopFlag]
  | notifyingLocked v =>
    simp only [clientStep, hpc]
    exact hset v _ _ (notifyAll_pc _) fun h => by rwa [notifyAll_stopFlag]
  | notifyingStopped v =>
    simp only [clientStep, hpc]
    exact hset v _ _ (notifyAll_pc _) fun h => by rwa [notifyAll_stopFlag]
  | locking v =>
    simp only [clientStep, hpc]
    exact hset v _ _ (Or.inl rfl) id
  | unlocking v =>
    simp only [clientStep, hpc]
    exact hset v _ _ (Or.inl rfl) id
  | stopping i =>
    simp only [clientStep, hpc]
    split
    · exact hset _ _ _ (Or.inl rfl) fun _ => rfl
    · exact ⟨Or.inl rfl, hsame⟩
  | pushing i task =>
    simp only [clientStep, hpc]
    split
    · exact ⟨Or.inl rfl, hsame⟩
    · exact ⟨Or.inl rfl, hsame⟩
  | joining i =>
    simp only [clientStep, hpc]
    split
    · exact ⟨Or.inl rfl, hsame⟩
    · exact ⟨Or.inl rfl, hsame⟩
  | idle =>
    simp only [clientStep, hpc]
    exact ⟨Or.inl trivial, hsame⟩
  | lost =>
    simp only [clientStep, hpc]
    exact ⟨Or.inl trivial, hsame⟩

/-- What a step does to a worker whose own step it is not. -/
theorem update_worker (l : Label n U Task) (s : State n U Task) {w : Fin n}
    (hl : ¬ ∃ throws, l = .worker w throws) :
    ((((pool n U Task).update l s).workers w).pc = (s.workers w).pc ∨
      (s.workers w).pc = .parked ∧ (((pool n U Task).update l s).workers w).pc = .woken) ∧
      ((s.workers w).stopFlag_ = true →
        (((pool n U Task).update l s).workers w).stopFlag_ = true) := by
  cases l with
  | submitTask u task draw =>
    simp only [pool]
    split
    · exact ⟨Or.inl rfl, id⟩
    · exact ⟨Or.inl rfl, id⟩
  | shutDown u => exact ⟨Or.inl rfl, id⟩
  | shutDownAfterWorkers u => exact ⟨Or.inl rfl, id⟩
  | client u => exact clientStep_worker u s w
  | worker v throws =>
    have hv : w ≠ v := by
      rintro rfl
      exact hl ⟨throws, rfl⟩
    have hsame := (workerStep_frame v throws s).1 w hv
    simp only [pool, hsame]
    exact ⟨Or.inl trivial, id⟩

end Clients

/-! ## Mutexes -/

/-- The worker has its own mutex. -/
def WorkerPc.holds : WorkerPc Task → Bool
  | .waiting => true
  | .unlocking => true
  | _ => false

/-- The client has the mutex of worker `w`. -/
def ClientPc.holds (w : Fin n) : ClientPc n Task → Bool
  | .notifyingLocked v => v == w
  | .unlocking v => v == w
  | _ => false

/-- A mutex that is taken is in somebody's hands. -/
def Held (s : State n U Task) : Prop :=
  ∀ w, (s.workers w).locked = true →
    (s.workers w).pc.holds = true ∨ ∃ u, (s.clients u).holds w = true

/-- Workers that hold nothing they are not seen to hold, and clients as before. -/
theorem held_of_workers {s s' : State n U Task} (h : Held s) (hclients : s'.clients = s.clients)
    (hworkers : ∀ w, (s'.workers w).locked = true →
      (s'.workers w).pc.holds = true ∨
        (s.workers w).locked = true ∧
          ((s.workers w).pc.holds = true → (s'.workers w).pc.holds = true)) : Held s' := by
  intro w hlocked
  rcases hworkers w hlocked with hholds | ⟨hbefore, hkeeps⟩
  · exact Or.inl hholds
  · rw [hclients]
    exact (h w hbefore).imp_left hkeeps

theorem workerStep_held (w : Fin n) (throws : Bool) {s : State n U Task} (h : Held s) :
    Held (workerStep w throws s) := by
  have hset : ∀ (x : Worker Task) (s' : State n U Task), s'.workers = s.workers →
      s'.clients = s.clients →
      (x.locked = true → x.pc.holds = true ∨
        (s.workers w).locked = true ∧ (s.workers w).pc.holds = false) →
      Held (setWorker w x s') := by
    intro x s' hworkers hclients hx
    refine held_of_workers h hclients fun v hv => ?_
    by_cases hvw : v = w
    · subst hvw
      rw [workers_setWorker, if_pos rfl] at hv ⊢
      exact (hx hv).imp_right fun hbefore =>
        ⟨hbefore.1, fun hholds => by simp [hbefore.2] at hholds⟩
    · rw [workers_setWorker, if_neg hvw, hworkers] at hv ⊢
      exact Or.inr ⟨hv, id⟩
  cases hpc : (s.workers w).pc with
  | ended =>
    simp only [workerStep, hpc]
    exact h
  | waiting =>
    simp only [workerStep, hpc]
    exact hset _ s rfl rfl (fun hx => by cases hx)
  | unlocking =>
    simp only [workerStep, hpc]
    exact hset _ s rfl rfl (fun hx => by cases hx)
  | locking =>
    simp only [workerStep, hpc]
    exact hset _ s rfl rfl (fun _ => Or.inl rfl)
  | woken =>
    simp only [workerStep, hpc]
    exact hset _ s rfl rfl (fun _ => Or.inl rfl)
  | popping =>
    simp only [workerStep, hpc]
    split
    · exact hset _ _ rfl rfl (fun hx => Or.inr ⟨hx, by rw [hpc]; rfl⟩)
    · exact hset _ _ rfl rfl (fun hx => Or.inr ⟨hx, by rw [hpc]; rfl⟩)
  | _ =>
    simp only [workerStep, hpc]
    exact hset _ _ rfl rfl (fun hx => Or.inr ⟨hx, by rw [hpc]; rfl⟩)

/-- A client that goes on to `pc`, changing at most the mutex of worker `v`. -/
theorem held_of_client {u : U} {s s' : State n U Task} (h : Held s) {v : Fin n}
    (hclients : ∀ u', u' ≠ u → s'.clients u' = s.clients u')
    (hworkers : ∀ w, w ≠ v → s'.workers w = s.workers w)
    (hholds : ∀ w, w ≠ v → (s.clients u).holds w = false)
    (hv : (s'.workers v).locked = true → (s'.clients u).holds v = true ∨
      (s.workers v).locked = true ∧ (s.clients u).holds v = false ∧
        ((s.workers v).pc.holds = true → (s'.workers v).pc.holds = true)) : Held s' := by
  have hclient : ∀ w u', (s.clients u').holds w = true → (s.clients u).holds w = false →
      ∃ u', (s'.clients u').holds w = true := by
    intro w u' hu' hnot
    have hne : u' ≠ u := by
      rintro rfl
      rw [hnot] at hu'
      cases hu'
    exact ⟨u', by rwa [hclients u' hne]⟩
  intro w hw
  by_cases hwv : w = v
  · subst hwv
    rcases hv hw with hnew | ⟨hbefore, hnot, hkeeps⟩
    · exact Or.inr ⟨u, hnew⟩
    · rcases h w hbefore with hworker | ⟨u', hu'⟩
      · exact Or.inl (hkeeps hworker)
      · exact Or.inr (hclient w u' hu' hnot)
  · rw [hworkers w hwv] at hw ⊢
    exact (h w hw).imp_right fun ⟨u', hu'⟩ => hclient w u' hu' (hholds w hwv)

section Clients

variable [DecidableEq U]

theorem clientStep_held (u : U) {s : State n U Task} (h : Held s) : Held (clientStep u s) := by
  have hother : ∀ u', u' ≠ u → (clientStep u s).clients u' = s.clients u' := fun u' hu' =>
    clients_clientStep_of_ne hu' s
  -- the workers are as before, and the client had no mutex
  have hsame : (clientStep u s).workers = s.workers → (∀ w, (s.clients u).holds w = false) →
      Held (clientStep u s) := by
    intro hworkers hholds w hw
    rw [hworkers] at hw ⊢
    refine (h w hw).imp_right fun ⟨u', hu'⟩ => ⟨u', ?_⟩
    have hne : u' ≠ u := by
      rintro rfl
      rw [hholds] at hu'
      cases hu'
    rwa [hother u' hne]
  have hnotify : ∀ x : Worker Task, x.pc.holds = true → x.notifyAll.pc.holds = true := by
    intro x hx
    rcases notifyAll_pc x with hpc | ⟨hpc, -⟩
    · rwa [hpc]
    · rw [hpc] at hx
      cases hx
  cases hpc : s.clients u with
  | idle => exact hsame (by simp only [clientStep, hpc]) (by simp [hpc, ClientPc.holds])
  | lost => exact hsame (by simp only [clientStep, hpc]) (by simp [hpc, ClientPc.holds])
  | pushing i task =>
    refine hsame ?_ (by simp [hpc, ClientPc.holds])
    simp only [clientStep, hpc]
    split <;> rfl
  | joining i =>
    refine hsame ?_ (by simp [hpc, ClientPc.holds])
    simp only [clientStep, hpc]
    split <;> rfl
  | stopping i =>
    by_cases hi : i < n
    · refine held_of_client h (v := ⟨i, hi⟩) hother (fun w hw => ?_) (fun w _ => ?_) fun hv => ?_
      · simp [clientStep, hpc, hi, hw]
      · simp [hpc, ClientPc.holds]
      · refine Or.inr ⟨by simpa [clientStep, hpc, hi] using hv, by simp [hpc, ClientPc.holds], ?_⟩
        simp [clientStep, hpc, hi]
    · exact hsame (by simp [clientStep, hpc, hi]) (by simp [hpc, ClientPc.holds])
  | notifying v =>
    refine held_of_client h (v := v) hother (fun w hw => ?_) (fun w _ => ?_) fun hv => ?_
    · simp [clientStep, hpc, hw]
    · simp [hpc, ClientPc.holds]
    · refine Or.inr ⟨by simpa [clientStep, hpc] using hv, by simp [hpc, ClientPc.holds], ?_⟩
      simpa [clientStep, hpc] using hnotify _
  | notifyingStopped v =>
    refine held_of_client h (v := v) hother (fun w hw => ?_) (fun w _ => ?_) fun hv => ?_
    · simp [clientStep, hpc, hw]
    · simp [hpc, ClientPc.holds]
    · refine Or.inr ⟨by simpa [clientStep, hpc] using hv, by simp [hpc, ClientPc.holds], ?_⟩
      simpa [clientStep, hpc] using hnotify _
  | locking v =>
    refine held_of_client h (v := v) hother (fun w hw => ?_) (fun w _ => ?_) fun _ => Or.inl ?_
    · simp [clientStep, hpc, hw]
    · simp [hpc, ClientPc.holds]
    · simp [clientStep, hpc, setClient, ClientPc.holds]
  | notifyingLocked v =>
    refine held_of_client h (v := v) hother (fun w hw => ?_) (fun w hw => ?_) fun _ => Or.inl ?_
    · simp [clientStep, hpc, hw]
    · simpa [hpc, ClientPc.holds] using Ne.symm hw
    · simp [clientStep, hpc, setClient, ClientPc.holds]
  | unlocking v =>
    refine held_of_client h (v := v) hother (fun w hw => ?_) (fun w hw => ?_) fun hv => ?_
    · simp [clientStep, hpc, hw]
    · simpa [hpc, ClientPc.holds] using Ne.symm hw
    · simp [clientStep, hpc] at hv

theorem step_held (l : Label n U Task) {s : State n U Task} (hg : (pool n U Task).guard l s)
    (h : Held s) : Held ((pool n U Task).update l s) := by
  -- a client that begins a call holds no mutex
  have hbegin : ∀ (u : U) (pc : ClientPc n Task), isIdle u s = true → Held (setClient u pc s) := by
    intro u pc hidle w hw
    refine (h w hw).imp_right fun ⟨u', hu'⟩ => ⟨u', ?_⟩
    have hne : u' ≠ u := by
      rintro rfl
      cases hpc : s.clients u' <;> simp_all [isIdle, ClientPc.holds]
    simpa [setClient, hne] using hu'
  cases l with
  | submitTask u task draw =>
    simp only [pool]
    split
    · exact hbegin u _ hg
    · exact h
  | shutDown u => exact hbegin u _ hg
  | shutDownAfterWorkers u => exact hbegin u _ hg
  | client u => exact clientStep_held u h
  | worker w throws => exact workerStep_held w throws h

theorem held {s : State n U Task} (h : Reachable (pool n U Task) s) : Held s := by
  refine reachable_invariant Held ?_ (fun l s hg hs => step_held l hg hs) h
  rintro s rfl w hw
  cases hw

/-! ## Workers that have ended -/

/-- A worker ends because its flag is set. -/
theorem stopped_of_ended {s : State n U Task} (h : Reachable (pool n U Task) s) (w : Fin n)
    (hw : (s.workers w).pc = .ended) : (s.workers w).stopFlag_ = true := by
  refine reachable_invariant
    (fun s => (s.workers w).pc = .ended → (s.workers w).stopFlag_ = true) ?_ ?_ h hw
  · rintro s rfl hended
    cases hended
  · intro l s _ hi hended
    by_cases hmine : ∃ throws, l = .worker w throws
    · obtain ⟨throws, rfl⟩ := hmine
      change ((workerStep w throws s).workers w).pc = .ended at hended
      change ((workerStep w throws s).workers w).stopFlag_ = true
      rw [(workerStep_frame w throws s).2.1]
      cases hpc : (s.workers w).pc with
      | testingStop =>
        by_contra hflag
        simp [workerStep, hpc, hflag] at hended
      | ended => exact hi hpc
      | testingEmpty =>
        simp only [workerStep, hpc, workers_setWorker, if_true] at hended
        split at hended <;> cases hended
      | popping =>
        simp only [workerStep, hpc] at hended
        split at hended <;> simp at hended
      | running task =>
        simp only [workerStep, hpc, workers_setWorker, if_true] at hended
        split at hended <;> cases hended
      | _ => simp [workerStep, hpc] at hended
    · obtain ⟨hpc, hflag⟩ := update_worker l s hmine
      refine hflag (hi ?_)
      rcases hpc with hpc | ⟨-, hwoken⟩
      · rwa [hpc] at hended
      · rw [hwoken] at hended
        cases hended

/-- A worker that has ended stays so. -/
theorem ended_step (l : Label n U Task) {s : State n U Task} (hg : (pool n U Task).guard l s)
    {w : Fin n} (hw : (s.workers w).pc = .ended) :
    (((pool n U Task).update l s).workers w).pc = .ended := by
  have hmine : ¬ ∃ throws, l = .worker w throws := by
    rintro ⟨throws, rfl⟩
    simp [pool, workerReady, hw] at hg
  rcases (update_worker l s hmine).1 with hpc | ⟨hparked, -⟩
  · rwa [hpc]
  · rw [hw] at hparked
    cases hparked

/-! ## Joins -/

/-- A client comes to a join by beginning the call, or from the join before. -/
theorem joining_step (l : Label n U Task) {s : State n U Task} {u : U} {i : Nat}
    (h : ((pool n U Task).update l s).clients u = .joining i) :
    s.clients u = .joining i ∨ i = 0 ∨
      ∃ j, i = j + 1 ∧ j < n ∧ s.clients u = .joining j ∧ l = .client u := by
  have hbegin : ∀ (u' : U) (pc : ClientPc n Task), (∀ i, pc = .joining i → i = 0) →
      (setClient u' pc s).clients u = .joining i → s.clients u = .joining i ∨ i = 0 := by
    intro u' pc hpc hset
    by_cases hu : u = u'
    · subst hu
      exact Or.inr (hpc i (by simpa [setClient] using hset))
    · exact Or.inl (by simpa [setClient, hu] using hset)
  cases l with
  | submitTask u' task draw =>
    simp only [pool] at h
    split at h
    · exact (hbegin u' _ (fun _ hpc => by cases hpc) h).imp_right Or.inl
    · exact Or.inl h
  | shutDown u' => exact (hbegin u' _ (fun _ hpc => by cases hpc) h).imp_right Or.inl
  | shutDownAfterWorkers u' =>
    exact (hbegin u' _ (fun _ hpc => by cases hpc; rfl) h).imp_right Or.inl
  | worker w throws =>
    change (workerStep w throws s).clients u = .joining i at h
    rw [clients_workerStep] at h
    exact Or.inl h
  | client u' =>
    change (clientStep u' s).clients u = .joining i at h
    by_cases hu : u = u'
    · subst hu
      cases hpc : s.clients u with
      | joining j =>
        simp only [clientStep, hpc] at h
        split at h
        · rename_i hj
          have hi : j + 1 = i := by simpa [setClient] using h
          exact Or.inr (Or.inr ⟨j, hi.symm, hj, rfl, rfl⟩)
        · simp [setClient] at h
      | pushing j task =>
        simp only [clientStep, hpc] at h
        split at h <;> simp [setClient] at h
      | stopping j =>
        simp only [clientStep, hpc] at h
        split at h <;> simp [setClient] at h
      | _ => simp [clientStep, hpc, setClient] at h
    · rw [clients_clientStep_of_ne hu] at h
      exact Or.inl h

/-- The workers that a call has joined have ended. -/
theorem ended_of_joining {s : State n U Task} (h : Reachable (pool n U Task) s) {u : U} {i : Nat}
    (hu : s.clients u = .joining i) {w : Fin n} (hw : w < i) : (s.workers w).pc = .ended := by
  refine reachable_invariant
    (fun s => ∀ (u : U) (i : Nat), s.clients u = .joining i →
      ∀ w : Fin n, w < i → (s.workers w).pc = .ended) ?_ ?_ h u i hu w hw
  · rintro s rfl u i hu
    cases hu
  · intro l s hg hi u i hu w hw
    rcases joining_step l hu with hbefore | rfl | ⟨j, rfl, hj, hjoin, rfl⟩
    · exact ended_step l hg (hi u i hbefore w hw)
    · exact absurd hw (Nat.not_lt_zero _)
    · refine ended_step _ hg ?_
      by_cases hwj : w < j
      · exact hi u j hjoin w hwj
      · -- the worker it was waiting for
        have hwj' : w = ⟨j, hj⟩ := Fin.ext (by simp; omega)
        subst hwj'
        simp only [pool, clientReady, hjoin, hj, dif_pos] at hg
        split at hg
        · assumption
        · cases hg

/-- Tasks are run by workers. -/
theorem ran_step (l : Label n U Task) {s : State n U Task}
    (hl : ∀ w throws, l = .worker w throws → ∀ task, (s.workers w).pc ≠ .running task) :
    ((pool n U Task).update l s).ran = s.ran := by
  cases l with
  | submitTask u task draw =>
    simp only [pool]
    split <;> rfl
  | shutDown u => rfl
  | shutDownAfterWorkers u => rfl
  | client u =>
    change (clientStep u s).ran = s.ran
    unfold clientStep
    repeat' split
    all_goals rfl
  | worker w throws =>
    change (workerStep w throws s).ran = s.ran
    have hrunning := hl w throws rfl
    unfold workerStep
    dsimp only
    split
    · rfl
    · rfl
    · split <;> rfl
    · rename_i task hpc
      exact absurd hpc (hrunning task)
    all_goals rfl

/-- What was submitted is queued, in the hands of a worker, or has been run. -/
theorem submitted_eq {s : State n U Task} (h : Reachable (pool n U Task) s) :
    (s.submitted : Multiset (Submission Task)) =
      (s.taskQueue : Multiset (Submission Task)) + inHands s.workers + (s.ran : Multiset _) := by
  have htaken : (s.taken : Multiset (Submission Task)) = inHands s.workers + (s.ran : Multiset _) :=
    takenOnce h
  obtain ⟨tr, hrun⟩ := h
  have hpushed : s.submitted.Perm (s.taken ++ s.taskQueue) :=
    Shelf.pushed_perm (run_taskShelf hrun)
  rw [Multiset.coe_eq_coe.mpr hpushed, ← Multiset.coe_add, htaken]
  abel

/-- With nobody running a task, what was submitted is queued or has been run. -/
theorem submitted_of_free {s : State n U Task} (h : Reachable (pool n U Task) s)
    (hfree : ∀ w, (s.workers w).pc.hands = 0) : s.submitted.Perm (s.taskQueue ++ s.ran) := by
  have hnone : inHands s.workers = 0 := Finset.sum_eq_zero fun w _ => hfree w
  have hall := submitted_eq h
  rw [hnone, add_zero, Multiset.coe_add] at hall
  exact Multiset.coe_eq_coe.mp hall

/-- **What a join waits for.** Where `shutDownAfterWorkers` returns, every worker
has ended, and ended because `shutDown` set its flag; every task that was
submitted has been run or is still queued; and of those none will be run, whatever
happens after that. -/
theorem joined {s : State n U Task} (h : Reachable (pool n U Task) s) {u : U} {i : Nat}
    (hu : s.clients u = .joining i) (hi : n ≤ i) :
    (∀ w, (s.workers w).pc = .ended ∧ (s.workers w).stopFlag_ = true) ∧
      s.submitted.Perm (s.taskQueue ++ s.ran) ∧
      ∀ s', Leads (pool n U Task) s s' → s'.ran = s.ran := by
  have hended : ∀ w, (s.workers w).pc = .ended := fun w =>
    ended_of_joining h hu (w.isLt.trans_le hi)
  refine ⟨fun w => ⟨hended w, stopped_of_ended h w (hended w)⟩, ?_, fun s' hleads => ?_⟩
  · refine submitted_of_free h fun w => ?_
    rw [hended w]
    rfl
  · have hstays : s'.ran = s.ran ∧ ∀ w, (s'.workers w).pc = .ended := by
      induction hleads with
      | refl => exact ⟨rfl, hended⟩
      | tail _ hstep ih =>
        obtain ⟨l, hg, rfl⟩ := hstep
        refine ⟨(ran_step l fun w throws _ task => ?_).trans ih.1,
          fun w => ended_step l hg (ih.2 w)⟩
        rw [ih.2 w]
        simp
    exact hstays.1

/-- A task is queued, the pool is shut down before the only worker looks, and
the worker ends. -/
def dropsTask : List (Label 1 Unit Nat) :=
  [.submitTask () 7 fun _ => 0, .client (), .client (), .client (), .client (), .client (),
    .shutDown (), .client (), .client (), .client (), .worker only false,
    .shutDownAfterWorkers (), .client ()]

theorem joined_drops :
    let s := after (pool 1 Unit Nat) dropsTask {}
    s.taskQueue = [⟨0, 7⟩] ∧ ∀ s', Leads (pool 1 Unit Nat) s s' → s'.ran = s.ran := by
  have hrun : Reachable (pool 1 Unit Nat) (after (pool 1 Unit Nat) dropsTask {}) :=
    ⟨_, run_of_fires rfl (by decide +kernel)⟩
  have hjoin : (after (pool 1 Unit Nat) dropsTask {}).clients () = .joining 1 := by decide +kernel
  exact ⟨by decide +kernel, (joined hrun hjoin (le_refl 1)).2.2⟩

/-! ## Paths without calls -/

omit [DecidableEq U] in
theorem workerStep_tasks (w : Fin n) (throws : Bool) (s : State n U Task) :
    (workerStep w throws s).taskQueue.length ≤ s.taskQueue.length ∧
      (workerStep w throws s).submitted = s.submitted := by
  unfold workerStep
  dsimp only
  split
  case h_3 =>
    split
    · rename_i task rest hpop
      rw [pop, Prod.mk.injEq] at hpop
      refine ⟨?_, rfl⟩
      simp [setWorker, ← hpop.2]
    · exact ⟨le_refl _, rfl⟩
  all_goals exact ⟨le_refl _, rfl⟩

omit [DecidableEq U] in
/-- With nothing queued, a worker that takes a step has no task in its hands. -/
theorem hands_workerStep {w : Fin n} {throws : Bool} {s : State n U Task} (h : s.taskQueue = []) :
    ((workerStep w throws s).workers w).pc.hands = 0 := by
  cases hpc : (s.workers w).pc with
  | testingStop =>
    simp only [workerStep, hpc, workers_setWorker, if_true]
    split <;> rfl
  | running task =>
    simp only [workerStep, hpc, workers_setWorker, if_true]
    split <;> rfl
  | ended =>
    simp only [workerStep, hpc]
    rfl
  | _ => simp [workerStep, hpc, h, pop, WorkerPc.hands]

/-- How many steps a worker is from the next pop, at most, while tasks are queued. -/
def WorkerPc.toPop : WorkerPc Task → Option Nat
  | .popping => some 0
  | .testingEmpty => some 1
  | .testingStop => some 2
  | .running _ => some 3
  | .unlocking => some 3
  | .woken => some 4
  | _ => none

omit [DecidableEq U] in
/-- While tasks are queued a worker on its way to a pop comes nearer to it. -/
theorem workerStep_toPop {w : Fin n} (throws : Bool) {s : State n U Task} {m : Nat}
    (hqueue : s.taskQueue ≠ []) (hflag : (s.workers w).stopFlag_ = false)
    (h : (s.workers w).pc.toPop = some m) :
    (workerStep w throws s).taskQueue.length < s.taskQueue.length ∨
      ∃ m', m' < m ∧ ((workerStep w throws s).workers w).pc.toPop = some m' := by
  cases hpc : (s.workers w).pc with
  | popping =>
    left
    obtain ⟨task, htask⟩ : ∃ task, s.taskQueue.getLast? = some task :=
      ⟨_, List.getLast?_eq_some_getLast hqueue⟩
    have hlength := List.length_pos_iff.mpr hqueue
    simp only [workerStep, hpc, pop, htask, setWorker, List.length_dropLast]
    omega
  | testingEmpty =>
    rw [hpc] at h
    cases h
    exact Or.inr ⟨0, by omega, by simp [workerStep, hpc, hqueue, WorkerPc.toPop]⟩
  | testingStop =>
    rw [hpc] at h
    cases h
    exact Or.inr ⟨1, by omega, by simp [workerStep, hpc, hflag, WorkerPc.toPop]⟩
  | running task =>
    rw [hpc] at h
    cases h
    cases throws with
    | true => exact Or.inr ⟨2, by omega, by simp [workerStep, hpc, WorkerPc.toPop]⟩
    | false => exact Or.inr ⟨1, by omega, by simp [workerStep, hpc, WorkerPc.toPop]⟩
  | unlocking =>
    rw [hpc] at h
    cases h
    exact Or.inr ⟨2, by omega, by simp [workerStep, hpc, WorkerPc.toPop]⟩
  | woken =>
    rw [hpc] at h
    cases h
    exact Or.inr ⟨3, by omega, by simp [workerStep, hpc, WorkerPc.toPop]⟩
  | _ =>
    rw [hpc] at h
    cases h

/-- Worker `w` has a step of its own; a parked worker can only be woken. -/
def Ready (w : Fin n) (s : State n U Task) : Prop :=
  workerReady w s = true ∧ (s.workers w).pc ≠ .parked

/-- Every worker gets its turn. -/
def Fair (π : Path (pool n U Task)) : Prop :=
  ∀ w k, ∃ j, k ≤ j ∧ ((∃ l, π.label j = some l ∧ ∃ throws, l = .worker w throws) ∨
    ¬ Ready w (π.state j))

/-- No call is in progress, and no worker parks too late. -/
structure LeftAlone (π : Path (pool n U Task)) : Prop where
  quiet : ∀ k, Quiet (π.state k)
  awake : ∀ k l, π.label k = some l → ¬ Misses (π.state k) l

/-- A step between two moments without a call is one of a worker, or changes
neither the workers nor the tasks. -/
theorem quiet_step (l : Label n U Task) {s : State n U Task} (hg : (pool n U Task).guard l s)
    (hquiet : Quiet s) :
    (∃ w throws, l = .worker w throws) ∨
      ((pool n U Task).update l s).workers = s.workers ∧
        ((pool n U Task).update l s).taskQueue = s.taskQueue ∧
        ((pool n U Task).update l s).submitted = s.submitted := by
  cases l with
  | worker w throws => exact Or.inl ⟨w, throws, rfl⟩
  | submitTask u task draw =>
    right
    simp only [pool]
    split <;> exact ⟨rfl, rfl, rfl⟩
  | shutDown u => exact Or.inr ⟨rfl, rfl, rfl⟩
  | shutDownAfterWorkers u => exact Or.inr ⟨rfl, rfl, rfl⟩
  | client u =>
    right
    have hu := hquiet u
    change clientReady u s = true at hg
    cases hpc : s.clients u with
    | joining i =>
      simp only [pool, clientStep, hpc]
      split <;> exact ⟨rfl, rfl, rfl⟩
    | _ => simp [hpc, ClientPc.inCall, clientReady] at hu hg

section Rests

variable {π : Path (pool n U Task)} (hquiet : ∀ k, Quiet (π.state k))

include hquiet

theorem state_flag {w : Fin n} {flag : Bool} (hflag : ((π.state 0).workers w).stopFlag_ = flag)
    (k : Nat) : ((π.state k).workers w).stopFlag_ = flag := by
  induction k with
  | zero => exact hflag
  | succ k ih =>
    cases hl : π.label k with
    | none => rwa [π.stutters k hl]
    | some l =>
      obtain ⟨hg, hnext⟩ := π.fires k l hl
      rw [hnext]
      rcases quiet_step l hg (hquiet k) with ⟨v, throws, rfl⟩ | ⟨hworkers, -⟩
      · exact ((workerStep_frame v throws (π.state k)).2.1 w).trans ih
      · rwa [hworkers]

theorem state_queue (k : Nat) :
    (π.state (k + 1)).taskQueue.length ≤ (π.state k).taskQueue.length ∧
      (π.state (k + 1)).submitted = (π.state k).submitted := by
  cases hl : π.label k with
  | none =>
    rw [π.stutters k hl]
    exact ⟨le_refl _, rfl⟩
  | some l =>
    obtain ⟨hg, hnext⟩ := π.fires k l hl
    rw [hnext]
    rcases quiet_step l hg (hquiet k) with ⟨v, throws, rfl⟩ | ⟨-, hqueue, hsubmitted⟩
    · exact ⟨(workerStep_tasks v throws (π.state k)).1, (workerStep_tasks v throws (π.state k)).2⟩
    · rw [hqueue, hsubmitted]
      exact ⟨le_refl _, rfl⟩

variable (hreach : Reachable (pool n U Task) (π.state 0))

include hreach

/-- Whoever is up and has not ended has a step of its own. -/
theorem state_ready {k : Nat} {w : Fin n} (hparked : ((π.state k).workers w).pc ≠ .parked)
    (hended : ((π.state k).workers w).pc ≠ .ended) : Ready w (π.state k) := by
  refine ⟨?_, hparked⟩
  have hheld := held (π.reachable hreach k) w
  have hclient : ∀ u, ((π.state k).clients u).holds w = false := by
    intro u
    have hu := hquiet k u
    cases hpc : (π.state k).clients u <;> simp_all [ClientPc.inCall, ClientPc.holds]
  have hfree : ((π.state k).workers w).pc.holds = false →
      ((π.state k).workers w).locked = false := by
    intro hnot
    by_contra hlocked
    rcases hheld (by simpa using hlocked) with hholds | ⟨u, hu⟩
    · rw [hnot] at hholds
      cases hholds
    · rw [hclient u] at hu
      cases hu
  cases hpc : ((π.state k).workers w).pc with
  | locking => simp [workerReady, hpc, hfree (by rw [hpc]; rfl)]
  | woken => simp [workerReady, hpc, hfree (by rw [hpc]; rfl)]
  | ended => exact absurd hpc hended
  | _ => simp [workerReady, hpc]

variable (hfair : Fair π)

include hfair

/-- A worker that is up takes its step. -/
theorem takes_step {w : Fin n} {k : Nat} (hparked : ((π.state k).workers w).pc ≠ .parked)
    (hended : ((π.state k).workers w).pc ≠ .ended) :
    ∃ j throws, k ≤ j ∧ ((π.state j).workers w).pc = ((π.state k).workers w).pc ∧
      π.label j = some (.worker w throws) := by
  generalize hpc : ((π.state k).workers w).pc = pc at hparked hended
  obtain ⟨j, hkj, hj, l, hl, throws, rfl⟩ := π.taken_of_ready
    (fun s => (s.workers w).pc = pc) (fun l => ∃ throws, l = .worker w throws)
    (fun i => by
      obtain ⟨j, hij, htaken | hnot⟩ := hfair w i
      · exact ⟨j, hij, Or.inl htaken⟩
      · refine ⟨j, hij, Or.inr fun hj => hnot ?_⟩
        exact state_ready hquiet hreach (by rwa [hj]) (by rwa [hj]))
    (fun l s _ hl hs => by
      rcases (update_worker l s hl).1 with hsame | ⟨hbefore, -⟩
      · rwa [hsame]
      · exact absurd (hs.symm.trans hbefore) hparked) hpc
  exact ⟨j, throws, hkj, hj, hl⟩

/-- Where the queue does not get shorter any more and is not empty, nobody is on
the way to a pop. -/
theorem not_toPop {k : Nat} (hflags : ∀ w, ((π.state 0).workers w).stopFlag_ = false)
    (hqueue : ∀ j, k ≤ j → (π.state j).taskQueue.length = (π.state k).taskQueue.length)
    (hne : (π.state k).taskQueue ≠ []) (w : Fin n) (m : Nat) :
    ∀ j, k ≤ j → ((π.state j).workers w).pc.toPop ≠ some m := by
  induction m using Nat.strong_induction_on with
  | _ m ih =>
    intro j hj hm
    have hup : ((π.state j).workers w).pc ≠ .parked ∧ ((π.state j).workers w).pc ≠ .ended := by
      constructor
      · intro hpc
        rw [hpc] at hm
        cases hm
      · intro hpc
        rw [hpc] at hm
        cases hm
    obtain ⟨i, throws, hji, hpc, hl⟩ := takes_step hquiet hreach hfair hup.1 hup.2
    have hki : k ≤ i := hj.trans hji
    have hnonempty : (π.state i).taskQueue ≠ [] := by
      rw [← List.length_pos_iff, hqueue i hki]
      exact List.length_pos_iff.mpr hne
    have hstep := workerStep_toPop throws hnonempty (state_flag hquiet (hflags w) i) (hpc ▸ hm)
    have hnext : π.state (i + 1) = workerStep w throws (π.state i) := (π.fires i _ hl).2
    rw [← hnext, hqueue i hki, hqueue (i + 1) (hki.trans (Nat.le_succ i))] at hstep
    rcases hstep with hless | ⟨m', hm', hpop⟩
    · exact absurd hless (lt_irrefl _)
    · exact ih m' hm' (i + 1) (hki.trans (Nat.le_succ i)) hpop

/-- So each worker parks, and stays parked. -/
theorem parks {k : Nat} (hflags : ∀ w, ((π.state 0).workers w).stopFlag_ = false)
    (hqueue : ∀ j, k ≤ j → (π.state j).taskQueue.length = (π.state k).taskQueue.length)
    (hne : (π.state k).taskQueue ≠ []) (w : Fin n) :
    ∃ i, k ≤ i ∧ ∀ j, i ≤ j → ((π.state j).workers w).pc = .parked := by
  have hnot := not_toPop hquiet hreach hfair hflags hqueue hne w
  have hended : ∀ j, ((π.state j).workers w).pc ≠ .ended := by
    intro j hpc
    have hflag := stopped_of_ended (π.reachable hreach j) w hpc
    rw [state_flag hquiet (hflags w) j] at hflag
    cases hflag
  have hstays : ∀ i, k ≤ i → ((π.state i).workers w).pc = .parked →
      ∀ j, i ≤ j → ((π.state j).workers w).pc = .parked := by
    intro i hki hi j hij
    induction j, hij using Nat.le_induction with
    | base => exact hi
    | succ j hij ih =>
      have hwoken : ((π.state (j + 1)).workers w).pc ≠ .woken := by
        intro hpc
        exact hnot 4 (j + 1) ((hki.trans hij).trans (Nat.le_succ j)) (by rw [hpc]; rfl)
      cases hl : π.label j with
      | none => rwa [π.stutters j hl]
      | some l =>
        obtain ⟨-, hnext⟩ := π.fires j l hl
        rw [hnext] at hwoken ⊢
        by_cases hmine : ∃ throws, l = .worker w throws
        · obtain ⟨throws, rfl⟩ := hmine
          exact absurd (by simp [pool, workerStep, ih]) hwoken
        · rcases (update_worker l (π.state j) hmine).1 with hsame | ⟨-, hwakes⟩
          · rwa [hsame]
          · exact absurd hwakes hwoken
  -- from `locking` it goes on to `waiting`, and from there it parks
  have hnext : ∀ j throws, π.label j = some (.worker w throws) →
      π.state (j + 1) = workerStep w throws (π.state j) := fun j throws hl => (π.fires j _ hl).2
  have hwaiting : ∀ j, k ≤ j → ((π.state j).workers w).pc = .waiting →
      ∃ i, k ≤ i ∧ ((π.state i).workers w).pc = .parked := by
    intro j hj hpc
    obtain ⟨i, throws, hji, hsame, hl⟩ :=
      takes_step hquiet hreach hfair (by rw [hpc]; simp) (hended j)
    refine ⟨i + 1, (hj.trans hji).trans (Nat.le_succ i), ?_⟩
    rw [hnext i throws hl]
    simp [workerStep, hsame.trans hpc]
  have hparks : ∃ i, k ≤ i ∧ ((π.state i).workers w).pc = .parked := by
    cases hpc : ((π.state k).workers w).pc with
    | parked => exact ⟨k, le_refl k, hpc⟩
    | waiting => exact hwaiting k (le_refl k) hpc
    | locking =>
      obtain ⟨i, throws, hki, hsame, hl⟩ :=
        takes_step hquiet hreach hfair (by rw [hpc]; simp) (hended k)
      refine hwaiting (i + 1) (hki.trans (Nat.le_succ i)) ?_
      rw [hnext i throws hl]
      simp [workerStep, hsame.trans hpc]
    | ended => exact absurd hpc (hended k)
    | testingStop => exact absurd (by rw [hpc]; rfl) (hnot 2 k (le_refl k))
    | testingEmpty => exact absurd (by rw [hpc]; rfl) (hnot 1 k (le_refl k))
    | popping => exact absurd (by rw [hpc]; rfl) (hnot 0 k (le_refl k))
    | running task => exact absurd (by rw [hpc]; rfl) (hnot 3 k (le_refl k))
    | woken => exact absurd (by rw [hpc]; rfl) (hnot 4 k (le_refl k))
    | unlocking => exact absurd (by rw [hpc]; rfl) (hnot 3 k (le_refl k))
  obtain ⟨i, hki, hi⟩ := hparks
  exact ⟨i, hki, hstays i hki hi⟩

/-- The queue gets empty, and stays empty. -/
theorem queue_empties (hflags : ∀ w, ((π.state 0).workers w).stopFlag_ = false)
    (hdue : Due (π.state 0)) (hawake : ∀ k l, π.label k = some l → ¬ Misses (π.state k) l) :
    ∃ k, ∀ j, k ≤ j → (π.state j).taskQueue = [] := by
  obtain ⟨k, -, hconst⟩ := π.eventually_const (fun s => s.taskQueue.length)
    (fun j (_ : 0 ≤ j) => (state_queue hquiet j).1)
  refine ⟨k, ?_⟩
  by_contra hnever
  have hne : (π.state k).taskQueue ≠ [] := by
    intro hempty
    refine hnever fun j hj => List.length_eq_zero_iff.mp ?_
    rw [hconst j hj, hempty, List.length_nil]
  -- then all workers park, though a task is queued
  have hparks := parks hquiet hreach hfair hflags hconst hne
  choose i hi using hparks
  have hall : ∀ w, i w ≤ Finset.univ.sup i := fun w => Finset.le_sup (Finset.mem_univ w)
  have hduek : Due (π.state (k + Finset.univ.sup i)) :=
    π.invariant_from (fun s l => ¬ Misses s l) Due hdue (fun l s hg hm hs => step_due l hg hm hs)
      _ (Nat.zero_le _) fun j _ _ l hl => hawake j l hl
  have hqueue : (π.state (k + Finset.univ.sup i)).taskQueue ≠ [] := by
    rw [← List.length_pos_iff, hconst _ (Nat.le_add_right _ _)]
    exact List.length_pos_iff.mpr hne
  obtain ⟨w, hup⟩ := (awake_of_due hduek (hquiet _)).tasks hqueue
  exact hup ((hi w).2 _ ((hall w).trans (Nat.le_add_left _ _)))

/-- With nothing queued any more, each worker gets rid of its task. -/
theorem frees {k : Nat} (hempty : ∀ j, k ≤ j → (π.state j).taskQueue = []) (w : Fin n) :
    ∃ i, k ≤ i ∧ ∀ j, i ≤ j → ((π.state j).workers w).pc.hands = 0 := by
  have hstays : ∀ i, k ≤ i → ((π.state i).workers w).pc.hands = 0 →
      ∀ j, i ≤ j → ((π.state j).workers w).pc.hands = 0 := by
    intro i hki hi j hij
    induction j, hij using Nat.le_induction with
    | base => exact hi
    | succ j hij ih =>
      cases hl : π.label j with
      | none => rwa [π.stutters j hl]
      | some l =>
        obtain ⟨-, hnext⟩ := π.fires j l hl
        rw [hnext]
        by_cases hmine : ∃ throws, l = .worker w throws
        · obtain ⟨throws, rfl⟩ := hmine
          exact hands_workerStep (hempty j (hki.trans hij))
        · rcases (update_worker l (π.state j) hmine).1 with hsame | ⟨-, hwoken⟩
          · rwa [hsame]
          · rw [hwoken]
            rfl
  have hfree : ∃ i, k ≤ i ∧ ((π.state i).workers w).pc.hands = 0 := by
    cases hpc : ((π.state k).workers w).pc with
    | running task =>
      obtain ⟨i, throws, hki, -, hl⟩ :=
        takes_step hquiet hreach hfair (by rw [hpc]; simp) (by rw [hpc]; simp)
      refine ⟨i + 1, hki.trans (Nat.le_succ i), ?_⟩
      rw [(π.fires i _ hl).2]
      exact hands_workerStep (hempty i hki)
    | _ => exact ⟨k, le_refl k, by rw [hpc]; rfl⟩
  obtain ⟨i, hki, hi⟩ := hfree
  exact ⟨i, hki, hstays i hki hi⟩

/-- A worker that comes to its stop test, before it takes its mutex again. -/
def WorkerPc.toStop : WorkerPc Task → Bool
  | .woken => true
  | .unlocking => true
  | .testingStop => true
  | .ended => true
  | _ => false

/-- A worker on the way to its stop test ends, if its flag is set. -/
theorem ends_of_toStop {k : Nat} {w : Fin n} (hflag : ((π.state 0).workers w).stopFlag_ = true)
    (h : ((π.state k).workers w).pc.toStop = true) : ∃ j, ((π.state j).workers w).pc = .ended := by
  have hnext : ∀ k pc, ((π.state k).workers w).pc = pc → pc ≠ .parked → pc ≠ .ended →
      ∃ j throws, ((π.state j).workers w).pc = pc ∧
        π.state (j + 1) = workerStep w throws (π.state j) := by
    rintro k pc rfl hparked hended
    obtain ⟨j, throws, -, hpc, hl⟩ := takes_step hquiet hreach hfair hparked hended
    exact ⟨j, throws, hpc, (π.fires j _ hl).2⟩
  have htesting : ∀ k, ((π.state k).workers w).pc = .testingStop →
      ∃ j, ((π.state j).workers w).pc = .ended := by
    intro k hk
    obtain ⟨j, throws, hj, hstep⟩ := hnext k _ hk (by simp) (by simp)
    refine ⟨j + 1, ?_⟩
    simp [hstep, workerStep, hj, state_flag hquiet hflag j]
  have hunlocking : ∀ k, ((π.state k).workers w).pc = .unlocking →
      ∃ j, ((π.state j).workers w).pc = .ended := by
    intro k hk
    obtain ⟨j, throws, hj, hstep⟩ := hnext k _ hk (by simp) (by simp)
    exact htesting (j + 1) (by simp [hstep, workerStep, hj])
  cases hpc : ((π.state k).workers w).pc with
  | ended => exact ⟨k, hpc⟩
  | testingStop => exact htesting k hpc
  | unlocking => exact hunlocking k hpc
  | woken =>
    obtain ⟨j, throws, hj, hstep⟩ := hnext k _ hpc (by simp) (by simp)
    exact hunlocking (j + 1) (by simp [hstep, workerStep, hj])
  | _ =>
    rw [hpc] at h
    cases h

omit hreach hfair in
/-- A worker that is past its stop test stays so, for as long as its tasks do not
throw and nothing wakes it up. -/
theorem not_toStop {w : Fin n}
    (hparked : ∀ k throws, π.label k = some (.worker w throws) →
      ((π.state k).workers w).pc ≠ .parked)
    (hthrows : ∀ k task, ((π.state k).workers w).pc = .running task →
      π.label k ≠ some (.worker w true))
    (h : ((π.state 0).workers w).pc.toStop = false) (k : Nat) :
    ((π.state k).workers w).pc.toStop = false := by
  induction k with
  | zero => exact h
  | succ k ih =>
    cases hl : π.label k with
    | none => rwa [π.stutters k hl]
    | some l =>
      obtain ⟨hg, hnext⟩ := π.fires k l hl
      rw [hnext]
      rcases quiet_step l hg (hquiet k) with ⟨v, throws, rfl⟩ | ⟨hworkers, -⟩
      · by_cases hvw : w = v
        · subst hvw
          change ((workerStep w throws (π.state k)).workers w).pc.toStop = false
          cases hpc : ((π.state k).workers w).pc with
          | parked => exact absurd hpc (hparked k throws hl)
          | running task =>
            have hnot : throws = false := by
              by_contra hthrow
              rw [Bool.not_eq_false] at hthrow
              subst hthrow
              exact hthrows k task hpc hl
            simp [workerStep, hpc, hnot, WorkerPc.toStop]
          | testingEmpty =>
            simp only [workerStep, hpc, workers_setWorker, if_true]
            split <;> rfl
          | popping =>
            simp only [workerStep, hpc]
            split <;> simp [WorkerPc.toStop]
          | locking => simp [workerStep, hpc, WorkerPc.toStop]
          | waiting => simp [workerStep, hpc, WorkerPc.toStop]
          | _ =>
            rw [hpc] at ih
            cases ih
        · have hsame := (workerStep_frame v throws (π.state k)).1 w hvw
          change ((workerStep v throws (π.state k)).workers w).pc.toStop = false
          rwa [hsame]
      · rwa [hworkers]

end Rests

/-- **Every task is run.** On every fair path without calls of `submitTask` and
`shutDown`, from wherever runs lead in which no stop flag was set, with no worker
that parks too late: there is a moment from which on the queue is empty and what
has been run is what was submitted, each task once. -/
theorem all_tasks_run {π : Path (pool n U Task)} {tr : List (State n U Task × Label n U Task)}
    (hrun : Run (pool n U Task) tr (π.state 0)) (hawake : ∀ p ∈ tr, ¬ Misses p.1 p.2)
    (hflags : ∀ w, ((π.state 0).workers w).stopFlag_ = false) (halone : LeftAlone π)
    (hfair : Fair π) :
    ∃ k, ∀ j, k ≤ j → (π.state j).taskQueue = [] ∧
      (π.state 0).submitted.Perm (π.state j).ran := by
  have hreach : Reachable (pool n U Task) (π.state 0) := ⟨tr, hrun⟩
  have hdue : Due (π.state 0) := by
    refine run_invariant_of (fun s l => ¬ Misses s l) Due ?_
      (fun l s hg hm hs => step_due l hg hm hs) hrun hawake
    rintro s rfl
    exact init_due
  obtain ⟨k, hempty⟩ := queue_empties halone.quiet hreach hfair hflags hdue halone.awake
  have hfrees := frees halone.quiet hreach hfair hempty
  choose i hi using hfrees
  have hsubmitted : ∀ j, (π.state j).submitted = (π.state 0).submitted := by
    intro j
    induction j with
    | zero => rfl
    | succ j ih => rw [(state_queue halone.quiet j).2, ih]
  refine ⟨k + Finset.univ.sup i, fun j hj => ?_⟩
  have hqueue := hempty j ((Nat.le_add_right _ _).trans hj)
  have hhands : ∀ w, ((π.state j).workers w).pc.hands = 0 := fun w =>
    (hi w).2 j (((Finset.le_sup (Finset.mem_univ w)).trans (Nat.le_add_left _ _)).trans hj)
  have hran := submitted_of_free (π.reachable hreach j) hhands
  rw [hqueue, List.nil_append, hsubmitted] at hran
  exact ⟨hqueue, hran⟩

/-- The worker that `wakesUp` has woken goes on to run the task, and parks. -/
def runsTask : List (Label 1 Unit Nat) := List.replicate 9 (.worker only false)

/-- The task is queued at the start of the path. -/
theorem all_tasks_run_wakesUp :
    ∃ π : Path (pool 1 Unit Nat), (π.state 0).taskQueue = [⟨0, 7⟩] ∧
      ∃ k, ∀ j, k ≤ j → (π.state j).taskQueue = [] ∧
        (π.state 0).submitted.Perm (π.state j).ran := by
  have hrun : Run (pool 1 Unit Nat) (trace (pool 1 Unit Nat) wakesUp {})
      (after (pool 1 Unit Nat) wakesUp {}) := run_of_fires rfl (by decide +kernel)
  have hfires : Fires (pool 1 Unit Nat) runsTask (after (pool 1 Unit Nat) wakesUp {}) := by
    decide +kernel
  have hsteps : ∀ p ∈ trace (pool 1 Unit Nat) runsTask (after (pool 1 Unit Nat) wakesUp {}),
      (p.1.clients ()).inCall = false ∧ ¬ Misses p.1 p.2 := by decide +kernel
  have hend : ((after (pool 1 Unit Nat) runsTask (after (pool 1 Unit Nat) wakesUp {})).clients
      ()).inCall = false ∧
      ((after (pool 1 Unit Nat) runsTask (after (pool 1 Unit Nat) wakesUp {})).workers only).pc =
        .parked := by decide +kernel
  obtain ⟨π, hzero, htail, hall⟩ := Path.exists_resting runsTask _ hfires
  have hmoment : ∀ k, ((π.state k).clients ()).inCall = false ∧
      ∀ l, π.label k = some l → ¬ Misses (π.state k) l := by
    intro k
    rcases hall k with ⟨p, hp, hstate, hlabel⟩ | ⟨hstate, hlabel⟩
    · rw [hstate, hlabel]
      exact ⟨(hsteps p hp).1, fun l hl => by cases hl; exact (hsteps p hp).2⟩
    · rw [hstate, hlabel]
      exact ⟨hend.1, fun l hl => by cases hl⟩
  have halone : LeftAlone π := ⟨fun k _ => (hmoment k).1, fun k => (hmoment k).2⟩
  have hfair : Fair π := by
    intro w k
    refine ⟨_, Nat.le_add_left k runsTask.length, Or.inr fun hready => hready.2 ?_⟩
    rw [(htail k).1, Subsingleton.elim w only]
    exact hend.2
  rw [← hzero] at hrun
  refine ⟨π, ?_, all_tasks_run hrun (by decide +kernel) ?_ halone hfair⟩
  · rw [hzero]
    decide +kernel
  · rw [hzero]
    decide +kernel

/-- **Whom `shutDown` ends.** On every fair path without calls, a worker whose flag
is set and which is not woken for no reason ends if and only if it is on the way to
its stop test at first, or a task that it runs throws. So a worker that is busy
with a task when `shutDown` notifies it sleeps through its end. -/
theorem ends_iff {π : Path (pool n U Task)} (hreach : Reachable (pool n U Task) (π.state 0))
    (hquiet : ∀ k, Quiet (π.state k)) (hfair : Fair π) {w : Fin n}
    (hflag : ((π.state 0).workers w).stopFlag_ = true)
    (hparked : ∀ k throws, π.label k = some (.worker w throws) →
      ((π.state k).workers w).pc ≠ .parked) :
    (∃ k, ((π.state k).workers w).pc = .ended) ↔
      ((π.state 0).workers w).pc.toStop = true ∨
        ∃ k task, ((π.state k).workers w).pc = .running task ∧
          π.label k = some (.worker w true) := by
  constructor
  · rintro ⟨k, hk⟩
    by_contra hnone
    rw [not_or, Bool.not_eq_true] at hnone
    have hnot := not_toStop hquiet hparked
      (fun k task hpc hl => hnone.2 ⟨k, task, hpc, hl⟩) hnone.1 k
    rw [hk] at hnot
    cases hnot
  · rintro (hstop | ⟨k, task, hpc, hl⟩)
    · exact ends_of_toStop hquiet hreach hfair hflag hstop
    · -- the exception takes it to the head of its loop
      refine ends_of_toStop (k := k + 1) hquiet hreach hfair hflag ?_
      rw [(π.fires k _ hl).2]
      simp [pool, workerStep, hpc, WorkerPc.toStop]

/-- The worker has popped a task when the pool is shut down. -/
def busyAtStop : List (Label 1 Unit Nat) :=
  [.submitTask () 7 fun _ => 0, .client (), .client (), .client (), .client (), .client (),
    .worker only false, .worker only false, .worker only false,
    .shutDown (), .client (), .client (), .client ()]

/-- It runs the task, finds the queue empty and parks. -/
def sleepsOn : List (Label 1 Unit Nat) := List.replicate 4 (.worker only false)

theorem ends_iff_busy :
    ∃ π : Path (pool 1 Unit Nat), ((π.state 0).workers only).stopFlag_ = true ∧ Fair π ∧
      ∀ k, ((π.state k).workers only).pc ≠ .ended := by
  have hreach : Reachable (pool 1 Unit Nat) (after (pool 1 Unit Nat) busyAtStop {}) :=
    ⟨_, run_of_fires rfl (by decide +kernel)⟩
  have hstart : ((after (pool 1 Unit Nat) busyAtStop {}).workers only).stopFlag_ = true ∧
      ((after (pool 1 Unit Nat) busyAtStop {}).workers only).pc.toStop = false := by decide +kernel
  have hfires : Fires (pool 1 Unit Nat) sleepsOn (after (pool 1 Unit Nat) busyAtStop {}) := by
    decide +kernel
  have hsteps : ∀ p ∈ trace (pool 1 Unit Nat) sleepsOn (after (pool 1 Unit Nat) busyAtStop {}),
      (p.1.clients ()).inCall = false ∧ (p.1.workers only).pc ≠ .parked := by decide +kernel
  have hend : ((after (pool 1 Unit Nat) sleepsOn (after (pool 1 Unit Nat) busyAtStop {})).clients
      ()).inCall = false ∧
      ((after (pool 1 Unit Nat) sleepsOn (after (pool 1 Unit Nat) busyAtStop {})).workers only).pc =
        .parked := by decide +kernel
  obtain ⟨π, hzero, htail, hall⟩ := Path.exists_resting sleepsOn _ hfires
  have hquiet : ∀ k, Quiet (π.state k) := by
    intro k _
    rcases hall k with ⟨p, hp, hstate, -⟩ | ⟨hstate, -⟩
    · rw [hstate]
      exact (hsteps p hp).1
    · rw [hstate]
      exact hend.1
  have hlabel : ∀ k throws, π.label k = some (.worker only throws) →
      ((π.state k).workers only).pc ≠ .parked ∧ throws = false := by
    intro k throws hl
    rcases hall k with ⟨p, hp, hstate, hp'⟩ | ⟨-, hnone⟩
    · rw [hstate]
      rw [hl, Option.some.injEq] at hp'
      have hmem := List.eq_of_mem_replicate (mem_of_mem_trace hp)
      rw [← hp', Label.worker.injEq] at hmem
      exact ⟨(hsteps p hp).2, hmem.2⟩
    · rw [hl] at hnone
      cases hnone
  have hfair : Fair π := by
    intro w k
    refine ⟨_, Nat.le_add_left k sleepsOn.length, Or.inr fun hready => hready.2 ?_⟩
    rw [(htail k).1, Subsingleton.elim w only]
    exact hend.2
  rw [← hzero] at hreach hstart
  refine ⟨π, hstart.1, hfair, fun k hk => ?_⟩
  have hends := (ends_iff hreach hquiet hfair hstart.1 fun k throws hl => (hlabel k throws hl).1).mp
    ⟨k, hk⟩
  rcases hends with hstop | ⟨k, task, -, hl⟩
  · rw [hstart.2] at hstop
    cases hstop
  · cases (hlabel k true hl).2

end Clients

end PicoDB.ThreadPool
