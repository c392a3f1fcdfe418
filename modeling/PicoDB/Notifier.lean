import Mathlib.Logic.Function.Basic
import PicoDB.Lib.Lts
import PicoDB.Vector

/-!
# PicoDB.Notifier — who wakes up the driver's loop

`writeOneBuffer` looks at the queue of requests, and if it is empty takes a mutex that
nobody else takes and parks. A request that is pushed and announced in between is
announced to nobody. `notifierService`, a thread that does nothing but look at the
queues and notify, makes up for it: whatever wake-ups are lost, the loop does not
sleep over a request (`pops`). Without the notifier it would (`sleeps_on`).
-/

namespace PicoDB.Notifier

open ConcurrentVector Lts

/-! ## State -/

/-- Where the driver's loop is. -/
inductive WriterPc where
  /-- in `writeOneBuffer`, at `bufferQueuePtr_->empty()` -/
  | testing
  /-- about to take `bufferQueueIsEmptyMutex` -/
  | locking
  /-- has it, at `bufferQueueIsEmpty.wait` -/
  | waiting
  | parked
  /-- on the way back from `wait` -/
  | woken
  | popping
  /-- writes what it has popped, and reads the reply -/
  | busy
  | halted
deriving DecidableEq, Repr

/-- Where the thread of `notifierService` is. -/
inductive NotifierPc where
  /-- at `responseQueue_.empty()` -/
  | testingResponses
  /-- at `responseQueueIsEmpty.notify_all()`, for which nobody waits -/
  | notifyingResponses
  /-- at `bufferQueuePtr_->empty()` -/
  | testing
  /-- at `bufferQueueIsEmpty.notify_all()` -/
  | notifying
deriving DecidableEq, Repr

/-- Where an application thread is in `queueRequestMessages`. -/
inductive RequesterPc (R : Type) where
  | outside
  | pushing (curBufPtr : R)
  /-- at `bufferQueueIsEmpty.notify_all()` -/
  | notifying
deriving DecidableEq, Repr

/-- The records `R`, and the application threads `T`. -/
structure State (R T : Type) where
  /-- `bufferQueuePtr_` -/
  bufferQueue : List R := []
  writer : WriterPc := .testing
  notifier : NotifierPc := .testingResponses
  requesters : T → RequesterPc R := fun _ => .outside

/-! ## Steps -/

variable {R T : Type}

/-- `bufferQueueIsEmpty.notify_all()`. -/
def notifyAll (s : State R T) : State R T :=
  if s.writer = .parked then { s with writer := .woken } else s

/-- A step of the driver's loop, which is not parked. -/
def writerStep (s : State R T) : State R T :=
  match s.writer with
  | .testing => { s with writer := if s.bufferQueue = [] then .locking else .popping }
  | .locking => { s with writer := .waiting }
  | .waiting => { s with writer := .parked }
  | .parked => s
  | .woken => { s with writer := .testing }
  | .popping =>
    match pop s.bufferQueue with
    | (some _, rest) => { s with bufferQueue := rest, writer := .busy }
    -- an empty pointer is dereferenced
    | (none, _) => { s with writer := .halted }
  | .busy => { s with writer := .testing }
  | .halted => s

/-- A step of `notifierService`; `empty` is what `responseQueue_.empty()` says. -/
def notifierStep (empty : Bool) (s : State R T) : State R T :=
  match s.notifier with
  | .testingResponses => { s with notifier := if empty then .testing else .notifyingResponses }
  | .notifyingResponses => { s with notifier := .testing }
  | .testing =>
    { s with notifier := if s.bufferQueue = [] then .testingResponses else .notifying }
  | .notifying => { notifyAll s with notifier := .testingResponses }

/-- Thread `t` goes to `pc`. -/
def setRequester [DecidableEq T] (t : T) (pc : RequesterPc R) (s : State R T) : State R T :=
  { s with requesters := Function.update s.requesters t pc }

/-- A step of thread `t` in `queueRequestMessages`. -/
def requesterStep [DecidableEq T] (t : T) (s : State R T) : State R T :=
  match s.requesters t with
  | .outside => s
  | .pushing curBufPtr =>
    setRequester t .notifying { s with bufferQueue := pushBack curBufPtr s.bufferQueue }
  | .notifying => setRequester t .outside (notifyAll s)

/-- What can happen next. -/
inductive Label (R T : Type) where
  | queueRequestMessages (t : T) (curBufPtr : R)
  | requester (t : T)
  | writer
  /-- `wait` returns for no reason -/
  | spurious
  | notifier (empty : Bool)
deriving DecidableEq, Repr

/-- The driver's loop, the notifier and the application threads. -/
def driver (R T : Type) [DecidableEq T] : System (State R T) (Label R T) where
  Init s := s = {}
  guard
    | .queueRequestMessages t _, s => s.requesters t = .outside
    | .requester t, s => s.requesters t ≠ .outside
    | .writer, s => s.writer ≠ .parked ∧ s.writer ≠ .halted
    | .spurious, s => s.writer = .parked
    | .notifier _, _ => True
  update
    | .queueRequestMessages t curBufPtr, s => setRequester t (.pushing curBufPtr) s
    | .requester t, s => requesterStep t s
    | .writer, s => writerStep s
    | .spurious, s => { s with writer := .woken }
    | .notifier empty, s => notifierStep empty s

instance [DecidableEq R] [DecidableEq T] (l : Label R T) (s : State R T) :
    Decidable ((driver R T).guard l s) :=
  match l with
  | .queueRequestMessages t _ => inferInstanceAs (Decidable (s.requesters t = .outside))
  | .requester t => inferInstanceAs (Decidable (s.requesters t ≠ .outside))
  | .writer => inferInstanceAs (Decidable (s.writer ≠ .parked ∧ s.writer ≠ .halted))
  | .spurious => inferInstanceAs (Decidable (s.writer = .parked))
  | .notifier _ => inferInstanceAs (Decidable True)

/-! ## What a step does -/

/-- What the others do to the loop: at most they wake it up, and the queue gets no
shorter. -/
structure Spares (s s' : State R T) : Prop where
  writer : s'.writer = s.writer ∨ s.writer = .parked ∧ s'.writer = .woken
  bufferQueue : s.bufferQueue ≠ [] → s'.bufferQueue ≠ []

theorem Spares.refl (s : State R T) : Spares s s := ⟨Or.inl rfl, id⟩

theorem notifyAll_writer (s : State R T) :
    (notifyAll s).writer = s.writer ∨ s.writer = .parked ∧ (notifyAll s).writer = .woken := by
  unfold notifyAll
  split
  · rename_i hparked
    exact Or.inr ⟨hparked, rfl⟩
  · exact Or.inl rfl

theorem notifyAll_bufferQueue (s : State R T) : (notifyAll s).bufferQueue = s.bufferQueue := by
  unfold notifyAll
  split <;> rfl

theorem notifierStep_spares (empty : Bool) (s : State R T) : Spares s (notifierStep empty s) := by
  unfold notifierStep
  split
  · exact ⟨Or.inl rfl, id⟩
  · exact ⟨Or.inl rfl, id⟩
  · exact ⟨Or.inl rfl, id⟩
  · exact ⟨notifyAll_writer s, fun h => (notifyAll_bufferQueue s).trans_ne h⟩

section Requesters

variable [DecidableEq T]

theorem requesterStep_spares (t : T) (s : State R T) : Spares s (requesterStep t s) := by
  unfold requesterStep
  split
  · exact .refl s
  · exact ⟨Or.inl rfl, fun _ => by simp [setRequester, pushBack]⟩
  · exact ⟨notifyAll_writer s, fun h => (notifyAll_bufferQueue s).trans_ne h⟩

/-- Every step but those of the loop itself. -/
theorem update_spares {l : Label R T} (s : State R T) (hg : (driver R T).guard l s)
    (hl : l ≠ .writer) : Spares s ((driver R T).update l s) := by
  cases l with
  | queueRequestMessages t curBufPtr => exact ⟨Or.inl rfl, id⟩
  | requester t => exact requesterStep_spares t s
  | writer => exact absurd rfl hl
  | spurious => exact ⟨Or.inr ⟨hg, rfl⟩, id⟩
  | notifier empty => exact notifierStep_spares empty s

end Requesters

/-- The loop is at `pop` only with something to pop. -/
def Sound (s : State R T) : Prop :=
  (s.writer = .popping → s.bufferQueue ≠ []) ∧ s.writer ≠ .halted

theorem Sound.spares {s s' : State R T} (h : Sound s) (hs : Spares s s') : Sound s' := by
  rcases hs.writer with heq | ⟨-, heq⟩
  · rw [Sound, heq]
    exact ⟨fun hpc => hs.bufferQueue (h.1 hpc), h.2⟩
  · rw [Sound, heq]
    exact ⟨nofun, nofun⟩

theorem Sound.writerStep {s : State R T} (h : Sound s) : Sound (writerStep s) := by
  unfold Notifier.writerStep
  split
  · by_cases hnil : s.bufferQueue = []
    · rw [if_pos hnil]
      exact ⟨nofun, nofun⟩
    · rw [if_neg hnil]
      exact ⟨fun _ => hnil, nofun⟩
  · exact ⟨nofun, nofun⟩
  · exact ⟨nofun, nofun⟩
  · exact h
  · exact ⟨nofun, nofun⟩
  · rename_i hpc
    split
    · exact ⟨nofun, nofun⟩
    · rename_i rest hpop
      exact absurd (List.getLast?_eq_none_iff.mp (congrArg Prod.fst hpop)) (h.1 hpc)
  · exact ⟨nofun, nofun⟩
  · exact h

variable [DecidableEq T]

theorem sound {s : State R T} (h : Reachable (driver R T) s) : Sound s := by
  refine reachable_invariant Sound (fun s hs => ?_) (fun l s hg hi => ?_) h
  · rw [hs]
    exact ⟨nofun, nofun⟩
  · by_cases hl : l = .writer
    · rw [hl]
      exact hi.writerStep
    · exact hi.spares (update_spares s hg hl)

/-! ## The loop does not sleep over a request -/

/-- The loop gets its turn, other than to write and to read, and so does the notifier. -/
structure Fair (π : Path (driver R T)) : Prop where
  writer : ∀ k, ∃ j, k ≤ j ∧ (π.label j = some .writer ∨
    (π.state j).writer = .parked ∨ (π.state j).writer = .busy ∨ (π.state j).writer = .halted)
  notifier : ∀ k, ∃ j, k ≤ j ∧ ∃ empty, π.label j = some (.notifier empty)

/-- The loop is at `pc`, with a request in the queue. -/
def At (pc : WriterPc) (s : State R T) : Prop := s.writer = pc ∧ s.bufferQueue ≠ []

section Paths

variable {π : Path (driver R T)} (hfair : Fair π)

include hfair

/-- Where it is not parked, the loop takes its step. -/
theorem writer_moves {pc : WriterPc} (hpc : pc ≠ .parked ∧ pc ≠ .busy ∧ pc ≠ .halted) {k : Nat}
    (hk : At pc (π.state k)) :
    ∃ j, k ≤ j ∧ At pc (π.state j) ∧ π.state (j + 1) = writerStep (π.state j) := by
  obtain ⟨j, hkj, hat, l, hl, rfl⟩ := π.taken_of_ready (At pc) (fun l => l = .writer)
    (fun i => by
      obtain ⟨j, hij, hj⟩ := hfair.writer i
      refine ⟨j, hij, ?_⟩
      rcases hj with htaken | hparked | hbusy | hhalted
      · exact Or.inl ⟨_, htaken, rfl⟩
      · exact Or.inr fun hat => hpc.1 (hat.1.symm.trans hparked)
      · exact Or.inr fun hat => hpc.2.1 (hat.1.symm.trans hbusy)
      · exact Or.inr fun hat => hpc.2.2 (hat.1.symm.trans hhalted))
    (fun l s hg hl hat => by
      obtain ⟨hwriter, hqueue⟩ := update_spares s hg hl
      rcases hwriter with hsame | ⟨hparked, -⟩
      · exact ⟨hsame.trans hat.1, hqueue hat.2⟩
      · exact absurd (hat.1.symm.trans hparked) hpc.1) hk
  exact ⟨j, hkj, hat, (π.fires j _ hl).2⟩

/-- The notifier takes its step. -/
theorem notifier_moves (k : Nat) :
    ∃ j, k ≤ j ∧ (π.state j).notifier = (π.state k).notifier ∧
      ∃ empty, π.state (j + 1) = notifierStep empty (π.state j) := by
  have hstay : ∀ (l : Label R T) (s : State R T), (driver R T).guard l s →
      (¬ ∃ empty, l = .notifier empty) → s.notifier = (π.state k).notifier →
      ((driver R T).update l s).notifier = (π.state k).notifier := by
    intro l s _ hl hs
    have hnotify : (notifyAll s).notifier = s.notifier := by
      unfold notifyAll
      split <;> rfl
    rw [← hs]
    cases l with
    | queueRequestMessages t curBufPtr => rfl
    | requester t =>
      change (requesterStep t s).notifier = s.notifier
      unfold requesterStep
      split
      · rfl
      · rfl
      · exact hnotify
    | writer =>
      change (writerStep s).notifier = s.notifier
      unfold writerStep
      repeat' split
      all_goals rfl
    | spurious => rfl
    | notifier empty => exact absurd ⟨empty, rfl⟩ hl
  obtain ⟨j, hkj, hsame, l, hl, empty, rfl⟩ := π.taken_of_ready
    (fun s => s.notifier = (π.state k).notifier) (fun l => ∃ empty, l = .notifier empty)
    (fun i => by
      obtain ⟨j, hij, empty, hl⟩ := hfair.notifier i
      exact ⟨j, hij, Or.inl ⟨_, hl, empty, rfl⟩⟩) hstay rfl
  exact ⟨j, hkj, hsame, empty, (π.fires j _ hl).2⟩

/-- A loop that is parked over a request is woken up. -/
theorem wakes {k : Nat} (hk : At .parked (π.state k)) : ∃ j, k ≤ j ∧ At .woken (π.state j) := by
  by_contra hnever
  -- then it is parked for ever, over a request
  have hparked : ∀ j, k ≤ j → At .parked (π.state j) := by
    intro j hkj
    induction j, hkj using Nat.le_induction with
    | base => exact hk
    | succ j hkj ih =>
      cases hl : π.label j with
      | none => rwa [π.stutters j hl]
      | some l =>
        obtain ⟨hg, hnext⟩ := π.fires j l hl
        have hne : l ≠ .writer := by
          rintro rfl
          exact hg.1 ih.1
        obtain ⟨hwriter, hqueue⟩ := update_spares _ hg hne
        rw [← hnext] at hwriter hqueue
        rcases hwriter with hsame | ⟨-, hwoken⟩
        · exact ⟨hsame.trans ih.1, hqueue ih.2⟩
        · exact absurd ⟨j + 1, Nat.le_succ_of_le hkj, hwoken, hqueue ih.2⟩ hnever
  have hnotifying : ∀ i, k ≤ i → (π.state i).notifier ≠ .notifying := by
    intro i hki hpc
    obtain ⟨j, hij, hsame, empty, hnext⟩ := notifier_moves hfair i
    have hj := hparked (j + 1) (by omega)
    rw [hnext, notifierStep, hsame.trans hpc] at hj
    simp only [notifyAll, if_pos (hparked j (hki.trans hij)).1] at hj
    cases hj.1
  have htesting : ∀ i, k ≤ i → (π.state i).notifier ≠ .testing := by
    intro i hki hpc
    obtain ⟨j, hij, hsame, empty, hnext⟩ := notifier_moves hfair i
    refine hnotifying (j + 1) (by omega) ?_
    simp only [hnext, notifierStep, hsame.trans hpc, if_neg (hparked j (hki.trans hij)).2]
  have hresponses : ∀ i, k ≤ i → (π.state i).notifier ≠ .notifyingResponses := by
    intro i hki hpc
    obtain ⟨j, hij, hsame, empty, hnext⟩ := notifier_moves hfair i
    refine htesting (j + 1) (by omega) ?_
    simp only [hnext, notifierStep, hsame.trans hpc]
  cases hpc : (π.state k).notifier with
  | testingResponses =>
    obtain ⟨j, hkj, hsame, empty, hnext⟩ := notifier_moves hfair k
    cases empty with
    | true =>
      refine htesting (j + 1) (by omega) ?_
      simp [hnext, notifierStep, hsame.trans hpc]
    | false =>
      refine hresponses (j + 1) (by omega) ?_
      simp [hnext, notifierStep, hsame.trans hpc]
  | notifyingResponses => exact hresponses k (le_refl k) hpc
  | testing => exact htesting k (le_refl k) hpc
  | notifying => exact hnotifying k (le_refl k) hpc

/-- From one place the loop comes to the next, and from there on. -/
theorem comes_to {pc pc' pc'' : WriterPc} (hpc : pc ≠ .parked ∧ pc ≠ .busy ∧ pc ≠ .halted)
    (hstep : ∀ s : State R T, At pc s → At pc' (writerStep s))
    (hthen : ∀ i, At pc' (π.state i) → ∃ j, i ≤ j ∧ At pc'' (π.state j)) {k : Nat}
    (hk : At pc (π.state k)) : ∃ j, k ≤ j ∧ At pc'' (π.state j) := by
  obtain ⟨i, hki, hat, hnext⟩ := writer_moves hfair hpc hk
  obtain ⟨j, hij, hj⟩ := hthen (i + 1) (hnext ▸ hstep _ hat)
  exact ⟨j, by omega, hj⟩

/-- Over a request it comes to the pop. -/
theorem comes_to_pop {pc : WriterPc} (hpc : pc ≠ .busy ∧ pc ≠ .halted) {k : Nat}
    (hk : At pc (π.state k)) : ∃ j, k ≤ j ∧ At .popping (π.state j) := by
  have htesting : ∀ i, At .testing (π.state i) → ∃ j, i ≤ j ∧ At .popping (π.state j) := by
    refine fun i => comes_to hfair (by decide) (fun s hs => ⟨?_, ?_⟩)
      fun i hi => ⟨i, le_refl i, hi⟩
    · simp only [writerStep, hs.1, if_neg hs.2]
    · simpa only [writerStep, hs.1] using hs.2
  have hwoken : ∀ i, At .woken (π.state i) → ∃ j, i ≤ j ∧ At .popping (π.state j) := by
    refine fun i => comes_to hfair (by decide) (fun s hs => ?_) htesting
    simpa only [At, writerStep, hs.1, true_and] using hs.2
  have hparked : ∀ i, At .parked (π.state i) → ∃ j, i ≤ j ∧ At .popping (π.state j) := by
    intro i hi
    obtain ⟨j, hij, hj⟩ := wakes hfair hi
    obtain ⟨m, hjm, hm⟩ := hwoken j hj
    exact ⟨m, hij.trans hjm, hm⟩
  -- it has seen the queue empty, and parks over the request
  have hwaiting : ∀ i, At .waiting (π.state i) → ∃ j, i ≤ j ∧ At .popping (π.state j) := by
    refine fun i => comes_to hfair (by decide) (fun s hs => ?_) hparked
    simpa only [At, writerStep, hs.1, true_and] using hs.2
  cases pc with
  | testing => exact htesting k hk
  | locking =>
    refine comes_to hfair (by decide) (fun s hs => ?_) hwaiting hk
    simpa only [At, writerStep, hs.1, true_and] using hs.2
  | waiting => exact hwaiting k hk
  | parked => exact hparked k hk
  | woken => exact hwoken k hk
  | popping => exact ⟨k, le_refl k, hk⟩
  | busy => exact absurd rfl hpc.1
  | halted => exact absurd rfl hpc.2

/-- The loop pops a request at moment `k` or later. -/
def PopsFrom (π : Path (driver R T)) (k : Nat) : Prop :=
  ∃ j, k ≤ j ∧ ∃ r, pop (π.state j).bufferQueue = (some r, (π.state (j + 1)).bufferQueue) ∧
    (π.state (j + 1)).writer = .busy

/-- **Nobody sleeps over a request.** On every fair path from a reachable state, whenever a
request is in the queue and the loop is not busy with another one, it pops a request,
whatever the application threads do and whichever wake-ups are lost. -/
theorem pops (hreach : Reachable (driver R T) (π.state 0)) {k : Nat}
    (hne : (π.state k).bufferQueue ≠ []) (hbusy : (π.state k).writer ≠ .busy) : PopsFrom π k := by
  have hhalted := (sound (π.reachable hreach k)).2
  obtain ⟨i, hki, hi⟩ := comes_to_pop hfair ⟨hbusy, hhalted⟩ ⟨rfl, hne⟩
  obtain ⟨j, hij, ⟨hpc, hqueue⟩, hnext⟩ := writer_moves hfair (by decide) hi
  obtain ⟨r, hr⟩ := Option.ne_none_iff_exists'.mp (mt List.getLast?_eq_none_iff.mp hqueue)
  have hpop : pop (π.state j).bufferQueue = (some r, (π.state j).bufferQueue.dropLast) := by
    rw [pop, hr]
  refine ⟨j, hki.trans hij, r, ?_, ?_⟩
  · simp only [hnext, writerStep, hpc, hpop]
  · simp only [hnext, writerStep, hpc, hpop]

end Paths

/-! ## Without the notifier -/

/-- The loop finds the queue empty, and parks after the request is pushed and announced. -/
def parksTooLate : List (Label Nat Unit) :=
  [.writer, .queueRequestMessages () 7, .requester (), .requester (), .writer, .writer]

/-- The notifier wakes it up, and it pops the request. -/
def wakesUp : List (Label Nat Unit) :=
  [.notifier true, .notifier true, .notifier true, .writer, .writer, .writer]

theorem pops_parksTooLate :
    ∃ π : Path (driver Nat Unit), (π.state 0).writer = .parked ∧
      (π.state 0).bufferQueue = [7] ∧ PopsFrom π 0 := by
  have hreach : Reachable (driver Nat Unit) (after (driver Nat Unit) parksTooLate {}) :=
    ⟨_, run_of_fires rfl (by decide +kernel)⟩
  have hstart : (after (driver Nat Unit) parksTooLate {}).writer = .parked ∧
      (after (driver Nat Unit) parksTooLate {}).bufferQueue = [7] := by decide +kernel
  have hfires : Fires (driver Nat Unit) wakesUp (after (driver Nat Unit) parksTooLate {}) := by
    decide +kernel
  have hbusy : (after (driver Nat Unit) wakesUp
      (after (driver Nat Unit) parksTooLate {})).writer = .busy := by decide +kernel
  -- after that only the notifier moves
  obtain ⟨ρ, hstate, hlabel⟩ : ∃ ρ : Path (driver Nat Unit),
      ρ.state 0 = after (driver Nat Unit) wakesUp (after (driver Nat Unit) parksTooLate {}) ∧
        ∀ k, ρ.label k = some (.notifier true) :=
    ⟨.repeating _ (.notifier true) _ fun _ => trivial, rfl, fun _ => rfl⟩
  obtain ⟨π, hzero, htail, -⟩ := Path.exists_after wakesUp _ hfires ρ hstate
  have hrest : ∀ k, (ρ.state k).writer = .busy := by
    intro k
    induction k with
    | zero => exact (congrArg State.writer hstate).trans hbusy
    | succ k ih =>
      rw [(ρ.fires k _ (hlabel k)).2]
      rcases (notifierStep_spares true (ρ.state k)).writer with hsame | ⟨hparked, -⟩
      · exact hsame.trans ih
      · rw [ih] at hparked
        cases hparked
  have hfair : Fair π := by
    constructor
    · intro k
      refine ⟨_, Nat.le_add_left k wakesUp.length, Or.inr (Or.inr (Or.inl ?_))⟩
      rw [(htail k).1]
      exact hrest k
    · exact fun k => ⟨_, Nat.le_add_left k wakesUp.length, true, (htail k).2.trans (hlabel k)⟩
  rw [← hzero] at hstart hreach
  refine ⟨π, hstart.1, hstart.2, pops hfair hreach ?_ ?_⟩
  · rw [hstart.2]
    nofun
  · rw [hstart.1]
    nofun

/-- Without the notifier a loop that parks after the last announcement sleeps for ever. -/
theorem sleeps_on {π : Path (driver R T)} (hparked : (π.state 0).writer = .parked)
    (houtside : ∀ t, (π.state 0).requesters t = .outside)
    (halone : ∀ k l, π.label k = some l → (∀ t curBufPtr, l ≠ .queueRequestMessages t curBufPtr) ∧
      (∀ empty, l ≠ .notifier empty) ∧ l ≠ .spurious) (k : Nat) :
    π.state k = π.state 0 := by
  induction k with
  | zero => rfl
  | succ k ih =>
    cases hl : π.label k with
    | none => rw [π.stutters k hl, ih]
    | some l =>
      obtain ⟨hg, -⟩ := π.fires k l hl
      obtain ⟨hrequest, hnotifier, hspurious⟩ := halone k l hl
      rw [ih] at hg
      cases l with
      | queueRequestMessages t curBufPtr => exact absurd rfl (hrequest t curBufPtr)
      | requester t => exact absurd (houtside t) hg
      | writer => exact absurd hparked hg.1
      | spurious => exact absurd rfl hspurious
      | notifier empty => exact absurd rfl (hnotifier empty)

end PicoDB.Notifier
