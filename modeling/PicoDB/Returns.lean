import PicoDB.Delivery
import PicoDB.Polling

/-!
# PicoDB.Returns — every call comes back

`getTheResponseOfRequest` looks at the back of `responseQueue_` only, so a
response that nobody waits for hides the others for ever. As long as no call
gives up there is none: whose response is at the back takes it, and then the
next one can be seen.

* `waited`: a request is waited for until its call ends.
* `not_hidden`: a call whose response stays at the back does not go on for ever.
* `all_returned`: once the application threads issue nothing more, every call
  comes back with the content of its own request.
-/

namespace PicoDB.Wire

open ConcurrentVector Lts LockStep Responses Exchange

variable {T : Type} [DecidableEq T] {X : Externals}

/-! ## Steps of a call -/

/-- A step of a thread in call `c`. -/
inductive CallerMoves (X : Externals) (t : T) (c : Call) (s : PicoDB.State T) :
    PicoDB.State T → Prop where
  | goesOn {pc : CallerPc} (hcall : pc.call = some c) : CallerMoves X t c s (setCaller t pc s)
  | returns {r : SharedPtr PicoMessage} (hpc : s.callers t = .removing c r) :
      CallerMoves X t c s (setCaller t .idle
        { s with
          responseQueue := remove (fun p => p.addr == r.addr) s.responseQueue
          returned := s.returned ++ [(c, r)] })
  | givesUp (htime : c.timedOut = true) :
      CallerMoves X t c s
        (setCaller t .idle { s with gaveUp := s.gaveUp ++ [(c, c.timeoutResponse X)] })

/-- Step lemma of a thread. -/
theorem callerStep_moves {t : T} {c : Call} (locked : Bool) {s : PicoDB.State T}
    (h : (s.callers t).call = some c) : CallerMoves X t c s (callerStep X t locked s) := by
  cases hpc : s.callers t with
  | idle => rw [hpc] at h; cases h
  | testing c' =>
    rw [hpc] at h
    simp only [callerStep, hpc]
    split
    · exact .goesOn h
    · exact .goesOn h
  | peeking c' =>
    rw [hpc] at h
    simp only [callerStep, hpc]
    exact .goesOn h
  | comparing c' response =>
    rw [hpc] at h
    cases response with
    | none =>
      simp only [callerStep, hpc]
      exact .goesOn h
    | some response =>
      simp only [callerStep, hpc]
      split
      · exact .goesOn h
      · exact .goesOn h
  | removing c' response =>
    rw [hpc] at h
    cases h
    simp only [callerStep, hpc]
    exact .returns hpc
  | timing c' =>
    rw [hpc] at h
    cases h
    simp only [callerStep, hpc]
    split
    · rename_i htime
      exact .givesUp htime
    · exact .goesOn rfl

omit [DecidableEq T] in
theorem call_of_ne_idle {s : PicoDB.State T} {t : T} (h : s.callers t ≠ .idle) :
    ∃ c, (s.callers t).call = some c := by
  cases hpc : s.callers t with
  | idle => exact absurd hpc h
  | testing c => exact ⟨c, rfl⟩
  | peeking c => exact ⟨c, rfl⟩
  | comparing c response => exact ⟨c, rfl⟩
  | removing c response => exact ⟨c, rfl⟩
  | timing c => exact ⟨c, rfl⟩

/-- A step of another thread leaves a thread where it is. -/
theorem callerStep_other {t t' : T} (hne : t' ≠ t) (locked : Bool) (s : PicoDB.State T) :
    (callerStep X t locked s).callers t' = s.callers t' := by
  unfold callerStep
  repeat' split
  all_goals first
    | rfl
    | rw [callers_setCaller, if_neg hne]

/-! ## A request is waited for -/

/-- Every request belongs to a call, and the call goes on or has ended. -/
def Waited (s : PicoDB.State T) : Prop :=
  ∀ m ∈ s.issued, Ended s m.messageId ∨ ∃ t c, (s.callers t).call = some c ∧ c.msg = m

omit [DecidableEq T] in
theorem Waited.sameCalls {s s' : PicoDB.State T} (h : Waited s) (hsame : SameCalls s s') :
    Waited s' := by
  intro m hm
  rw [hsame.issued] at hm
  rw [Ended, hsame.returned, hsame.gaveUp, hsame.callers]
  exact h m hm

theorem CallerMoves.waited {t : T} {c : Call} {s s' : PicoDB.State T} (hm : CallerMoves X t c s s')
    (hcall : (s.callers t).call = some c) (hothers : ∀ t', t' ≠ t → s'.callers t' = s.callers t')
    (h : Waited s) : Waited s' := by
  -- a call that does not go on ends
  have hown : s'.issued = s.issued ∧ (∀ id, Ended s id → Ended s' id) ∧
      ((s'.callers t).call = some c ∨ Ended s' c.msg.messageId) := by
    cases hm with
    | goesOn hpc => exact ⟨rfl, fun id h => h, Or.inl (by rw [callers_setCaller, if_pos rfl, hpc])⟩
    | @returns r hpc =>
      refine ⟨rfl, fun id hid => ?_, Or.inr (Or.inl ⟨(c, r), by simp [setCaller], rfl⟩)⟩
      rcases hid with ⟨e, he, heq⟩ | hid
      · exact Or.inl ⟨e, List.mem_append_left _ he, heq⟩
      · exact Or.inr hid
    | givesUp htime =>
      refine ⟨rfl, fun id hid => ?_,
        Or.inr (Or.inr ⟨(c, c.timeoutResponse X), by simp [setCaller], rfl⟩)⟩
      rcases hid with hid | ⟨e, he, heq⟩
      · exact Or.inl hid
      · exact Or.inr ⟨e, List.mem_append_left _ he, heq⟩
  obtain ⟨hissued, hended, hgoes⟩ := hown
  intro m hmem
  rw [hissued] at hmem
  rcases h m hmem with hend | ⟨t', c', hc', rfl⟩
  · exact Or.inl (hended _ hend)
  · by_cases heq : t' = t
    · subst heq
      cases hc'.symm.trans hcall
      exact hgoes.symm.imp id fun hstays => ⟨t', c, hstays, rfl⟩
    · exact Or.inr ⟨t', c', by rw [hothers t' heq, hc'], rfl⟩

/-- A request is waited for until its call ends. -/
theorem waited {s : PicoDB.State T} (h : Reachable (system X T) s) : Waited s := by
  refine reachable_invariant Waited ?_ ?_ h
  · rintro s rfl m hm
    cases hm
  · intro l s hg hi
    cases l with
    | issue t a draw t1 t2 u =>
      intro m hm
      rcases List.mem_append.mp hm with hold | hnew
      · rcases hi m hold with hend | ⟨t', c', hc', rfl⟩
        · exact Or.inl hend
        · refine Or.inr ⟨t', c', ?_, rfl⟩
          have hne : t' ≠ t := by
            rintro rfl
            rw [show s.callers t' = .idle from hg] at hc'
            cases hc'
          change ((setCaller t _ _).callers t').call = _
          rw [callers_setCaller, if_neg hne]
          exact hc'
      · refine Or.inr ⟨t, ⟨a.build X draw, t1, t2, u⟩, ?_, (List.mem_singleton.mp hnew).symm⟩
        change ((setCaller t _ _).callers t).call = _
        rw [callers_setCaller, if_pos rfl]
        rfl
    | caller t locked =>
      obtain ⟨c, hc⟩ := call_of_ne_idle hg
      exact (callerStep_moves locked hc).waited hc (fun t' hne => callerStep_other hne locked s) hi
    | driver M => exact hi.sameCalls (driverStep_sameCalls X M s)
    | session dangling M => exact hi.sameCalls (sessionStep_sameCalls X dangling M s)

/-! ## No call gives up -/

/-- No call gave up, and none that goes on is out of time. -/
def Patient (s : PicoDB.State T) : Prop :=
  s.gaveUp = [] ∧ ∀ t c, (s.callers t).call = some c → c.timedOut = false

omit [DecidableEq T] in
theorem Patient.sameCalls {s s' : PicoDB.State T} (h : Patient s) (hsame : SameCalls s s') :
    Patient s' := by
  rw [Patient, hsame.gaveUp, hsame.callers]
  exact h

theorem CallerMoves.patient {t : T} {c : Call} {s s' : PicoDB.State T}
    (hm : CallerMoves X t c s s') (hcall : (s.callers t).call = some c)
    (hothers : ∀ t', t' ≠ t → s'.callers t' = s.callers t') (h : Patient s) : Patient s' := by
  have hown : s'.gaveUp = s.gaveUp ∧
      ((s'.callers t).call = some c ∨ (s'.callers t).call = none) := by
    cases hm with
    | goesOn hpc => exact ⟨rfl, Or.inl (by rw [callers_setCaller, if_pos rfl, hpc])⟩
    | returns hpc => exact ⟨rfl, Or.inr (by rw [callers_setCaller, if_pos rfl]; rfl)⟩
    | givesUp htime =>
      rw [h.2 t c hcall] at htime
      cases htime
  refine ⟨hown.1.trans h.1, fun t' c' hc' => ?_⟩
  by_cases heq : t' = t
  · subst heq
    rcases hown.2 with hstays | hends
    · cases hstays.symm.trans hc'
      exact h.2 t' c hcall
    · rw [hends] at hc'
      cases hc'
  · rw [hothers t' heq] at hc'
    exact h.2 t' c' hc'

/-- Step lemma: with nothing issued, patience stays. -/
theorem patient_step (l : Label T) {s : State T} (hg : (wire X T).guard l s) (hl : ¬ l.IsIssue)
    (h : Patient s.core) : Patient ((wire X T).update l s).core := by
  cases l with
  | issue t a draw t1 t2 u => exact absurd trivial hl
  | caller t locked =>
    obtain ⟨c, hc⟩ := call_of_ne_idle hg
    exact (callerStep_moves locked hc).patient hc
      (fun t' hne => callerStep_other hne locked s.core) h
  | driver P => exact h.sameCalls (driverStep_calls P s)
  | session P => exact h.sameCalls (sessionStep_calls P s)
  | toSession k => exact h
  | toDriver k => exact h

/-! ## Once everything is done -/

theorem home_of_done {s : State T} (h : Inv X s) (hfit : Fit X s.core) (hdone : Done s.core) :
    At s.core .home := by
  obtain ⟨k, hat, -⟩ := h.lockStep hfit
  have hbodies : k.bodies = [] := (onTheWay_of_at hat).symm.trans hdone.2
  cases k with
  | home => exact hat
  | _ => cases hbodies

/-- The loops have nothing left to do for the callers. -/
structure Idles (s s' : PicoDB.State T) : Prop where
  done : Done s'
  calls : SameCalls s s'
  responses : s'.responseQueue = s.responseQueue

omit [DecidableEq T] in
theorem Idles.refl {s : PicoDB.State T} (h : Done s) : Idles s s :=
  ⟨h, ⟨rfl, rfl, rfl, rfl, rfl⟩, rfl⟩

omit [DecidableEq T] in
/-- A driver that held nothing goes to where it holds nothing. -/
theorem idles_driver {s : PicoDB.State T} (hdone : Done s) {pc : DriverPc}
    (hbefore : driverHolds s.driver = []) (hafter : driverHolds pc = []) :
    Idles s { s with driver := pc } := by
  refine ⟨⟨hdone.1, ?_⟩, ⟨rfl, rfl, rfl, rfl, rfl⟩, rfl⟩
  have hway := hdone.2
  rw [onTheWay, hbefore] at hway
  rw [onTheWay, hafter]
  exact hway

omit [DecidableEq T] in
theorem DriverMoves.idles {P : Peer} {s s' : State T} (hm : DriverMoves X P s s')
    (hhome : At s.core .home) (hdone : Done s.core) : Idles s.core s'.core := by
  obtain ⟨hd, -⟩ := hhome
  have hread : s.core.driver ≠ .reading := by
    rcases hd with hd | hd | hd <;> simp [hd]
  cases hm with
  | sends hd' => exact absurd hd' hread
  | readsHeader hd' => exact absurd hd' hread
  | readsBody hd' => exact absurd hd' hread
  | @writes r f hd' =>
    rw [hd'] at hd
    simp at hd
  | inside =>
    rcases hd with hd | hd | ⟨-, hne⟩
    · -- it finds nothing in the request queue
      have hstep : PicoDB.driverStep X (P.memory 0) s.core = { s.core with driver := .parked } := by
        simp only [PicoDB.driverStep, hd, hdone.1, if_true]
      rw [hstep]
      exact idles_driver hdone (by rw [hd]; rfl) rfl
    · have hstep : PicoDB.driverStep X (P.memory 0) s.core =
          { s.core with driver := .testing } := by
        simp only [PicoDB.driverStep, hd]
      rw [hstep]
      exact idles_driver hdone (by rw [hd]; rfl) rfl
    · exact absurd hdone.1 hne

omit [DecidableEq T] in
theorem SessionMoves.idles {P : Peer} {s s' : State T} (hm : SessionMoves X P s s')
    (hhome : At s.core .home) (hdone : Done s.core) : Idles s.core s'.core := by
  obtain ⟨-, hs, ⟨hto, -⟩, -⟩ := hhome
  cases hm with
  | sends => exact .refl hdone
  | readsHeader => exact .refl hdone
  | readsBody _ _ hframes =>
    rw [hto] at hframes
    cases hframes
  | writes hs' =>
    rw [hs] at hs'
    cases hs'
  | inside _ hread => exact absurd hs hread

/-- What is known of a state where everything is done. -/
structure Rests (X : Externals) (s : State T) : Prop where
  inv : Inv X s
  fit : Fit X s.core
  ids : Distinct s.core
  patient : Patient s.core
  done : Done s.core

theorem length_remove_lt {s : State T} (h : Inv X s) (hids : Distinct s.core) {t : T} {c : Call}
    {p : SharedPtr PicoMessage} (hpc : s.core.callers t = .removing c p) :
    (remove (fun q => q.addr == p.addr) s.core.responseQueue).length <
      s.core.responseQueue.length := by
  -- what is removed is there
  have hin := mem_of_removing (calls h.reachable hids) hpc
  have hlength := (perm_cons_remove (pointers h.reachable).nodup hin).length_eq
  rw [List.length_cons] at hlength
  omega

/-- Step lemma: what waits in `responseQueue_` stays, or a call returns it. -/
theorem shrinks_step (l : Label T) {s : State T} (hg : (wire X T).guard l s) (hintact : Intact s l)
    (hl : ¬ l.IsIssue) (h : Rests X s) :
    Done ((wire X T).update l s).core ∧
      (((wire X T).update l s).core.responseQueue = s.core.responseQueue ∨
        ((wire X T).update l s).core.responseQueue.length < s.core.responseQueue.length) := by
  have hhome := home_of_done h.inv h.fit h.done
  cases l with
  | issue t a draw t1 t2 u => exact absurd trivial hl
  | caller t locked =>
    have hsame := callerStep_sameLoops X t locked s.core
    refine ⟨⟨hsame.requestQueue.trans h.done.1, ?_⟩, ?_⟩
    · have hway := h.done.2
      change onTheWay (callerStep X t locked s.core) = []
      rw [onTheWay, hsame.driver, hsame.toSession, hsame.session, hsame.bufferQueue, hsame.toDriver]
      exact hway
    · rcases callerStep_responses X t locked s.core with ⟨c, p, hpc, hqueue, -⟩ | ⟨hqueue, -⟩
      · change (callerStep X t locked s.core).responseQueue = _ ∨
          (callerStep X t locked s.core).responseQueue.length < _
        rw [hqueue]
        exact Or.inr (length_remove_lt h.inv h.ids hpc)
      · exact Or.inl hqueue
  | driver P =>
    have hidles := (driverStep_moves h.inv h.fit hg hintact).idles hhome h.done
    exact ⟨hidles.done, Or.inl hidles.responses⟩
  | session P =>
    have hidles := (sessionStep_moves h.inv h.fit hg hintact).idles hhome h.done
    exact ⟨hidles.done, Or.inl hidles.responses⟩
  | toSession k => exact ⟨h.done, Or.inl rfl⟩
  | toDriver k => exact ⟨h.done, Or.inl rfl⟩

theorem rests_step (l : Label T) {s : State T} (hg : (wire X T).guard l s) (hintact : Intact s l)
    (hl : ¬ l.IsIssue) (h : Rests X s) : Rests X ((wire X T).update l s) := by
  have hissued := issued_of_not_isIssue (X := X) l hl s
  refine ⟨step_inv l hg hintact h.fit h.inv, ?_, ?_, patient_step l hg hl h.patient,
    (shrinks_step l hg hintact hl h).1⟩
  · rw [Fit, hissued]
    exact h.fit
  · rw [Distinct, hissued]
    exact h.ids

/-! ## A response at the back is found -/

/-- A thread that is in a call takes a step again and again, and if it comes to
`peek` again and again, it gets the lock again and again. -/
structure Attended (π : Path (wire X T)) (t : T) : Prop where
  scheduled : ∀ k, ∃ j, k ≤ j ∧
    ((∃ l, π.label j = some l ∧ ∃ locked, l = .caller t locked) ∨
      (π.state j).core.callers t = .idle)
  locks : (∀ k, ∃ j, k ≤ j ∧ (∃ c, (π.state j).core.callers t = .peeking c) ∧
      ∃ locked, π.label j = some (.caller t locked)) →
    ∀ k, ∃ j, k ≤ j ∧ (∃ c, (π.state j).core.callers t = .peeking c) ∧
      π.label j = some (.caller t true)

/-- Others leave a thread that is in a call where it is. -/
theorem callers_of_other {t : T} {l : Label T} {s : State T} (hg : (wire X T).guard l s)
    (hl : ¬ ∃ locked, l = .caller t locked) (hcall : s.core.callers t ≠ .idle) :
    ((wire X T).update l s).core.callers t = s.core.callers t := by
  cases l with
  | issue t' a draw t1 t2 u =>
    have hne : t ≠ t' := by
      rintro rfl
      exact hcall hg
    change (setCaller t' _ _).callers t = _
    rw [callers_setCaller, if_neg hne]
    rfl
  | caller t' locked =>
    have hne : t ≠ t' := by
      rintro rfl
      exact hl ⟨locked, rfl⟩
    exact callerStep_other hne locked s.core
  | driver P => exact congrFun (driverStep_calls P s).callers t
  | session P => exact congrFun (sessionStep_calls P s).callers t
  | toSession k => rfl
  | toDriver k => rfl

section Hidden

variable {π : Path (wire X T)} {t : T} {c : Call} {k : Nat} {q : List (SharedPtr PicoMessage)}

variable (hattended : Attended π t)
  (hcall : ∀ j, k ≤ j → ((π.state j).core.callers t).call = some c)
  (hqueue : ∀ j, k ≤ j → (π.state j).core.responseQueue = q)

include hattended hcall

/-- The next step of the thread finds it where it was. -/
theorem next_step {j : Nat} (hj : k ≤ j) :
    ∃ i locked, j ≤ i ∧ (π.state i).core.callers t = (π.state j).core.callers t ∧
      π.label i = some (.caller t locked) ∧
      (π.state (i + 1)).core = callerStep X t locked (π.state i).core := by
  have hbusy : (π.state j).core.callers t ≠ .idle := Polling.ne_idle_of_call (hcall j hj)
  obtain ⟨i, hji, hpc, l, hl, locked, rfl⟩ := π.taken_of_ready
    (fun s => s.core.callers t = (π.state j).core.callers t)
    (fun l => ∃ locked, l = .caller t locked)
    (fun k => by
      obtain ⟨i, hki, htaken | hidle⟩ := hattended.scheduled k
      · exact ⟨i, hki, Or.inl htaken⟩
      · exact ⟨i, hki, Or.inr fun h => hbusy (h.symm.trans hidle)⟩)
    (fun l s hg hl hs => (callers_of_other hg hl (hs ▸ hbusy)).trans hs) rfl
  exact ⟨i, locked, hji, hpc, hl, congrArg State.core (π.fires i _ hl).2⟩

theorem not_removing {j : Nat} (hj : k ≤ j) (r : SharedPtr PicoMessage) :
    (π.state j).core.callers t ≠ .removing c r := by
  intro hpc
  obtain ⟨i, locked, hji, hsame, -, hstep⟩ := next_step hattended hcall hj
  -- the call would be over
  have hends := hcall (i + 1) ((hj.trans hji).trans (Nat.le_succ i))
  rw [hstep] at hends
  simp [callerStep, hsame, hpc, callers_setCaller, CallerPc.call] at hends

include hqueue

/-- From where the thread is it gets to where its step takes it. -/
theorem moves_on {pc pc' : CallerPc}
    (hstep : ∀ locked (s : PicoDB.State T), s.callers t = pc → s.responseQueue = q →
      (callerStep X t locked s).callers t = pc') {j : Nat} (hj : k ≤ j)
    (hpc : (π.state j).core.callers t = pc) :
    ∃ i, j ≤ i ∧ (π.state i).core.callers t = pc' := by
  obtain ⟨i, locked, hji, hsame, -, hnext⟩ := next_step hattended hcall hj
  refine ⟨i + 1, hji.trans (Nat.le_succ i), ?_⟩
  rw [hnext]
  exact hstep locked _ (hsame.trans hpc) (hqueue i (hj.trans hji))

/-- From wherever the loop is it comes to `peek`. -/
theorem comes_to_peek (hne : q ≠ []) (htime : c.timedOut = false) {j : Nat} (hj : k ≤ j) :
    ∃ i, j ≤ i ∧ (π.state i).core.callers t = .peeking c := by
  have htesting : ∀ j, k ≤ j → (π.state j).core.callers t = .testing c →
      ∃ i, j ≤ i ∧ (π.state i).core.callers t = .peeking c := fun j hj =>
    moves_on hattended hcall hqueue
      (fun locked s hpc hq => by simp [callerStep, hpc, hq, hne, callers_setCaller]) hj
  have htiming : ∀ j, k ≤ j → (π.state j).core.callers t = .timing c →
      ∃ i, j ≤ i ∧ (π.state i).core.callers t = .peeking c := by
    intro j hj hpc
    have hmove : ∃ i, j ≤ i ∧ (π.state i).core.callers t = .testing c :=
      moves_on hattended hcall hqueue
        (fun locked s hpc _ => by simp [callerStep, hpc, htime, callers_setCaller]) hj hpc
    obtain ⟨i, hji, hi⟩ := hmove
    obtain ⟨i', hi', hpeek⟩ := htesting i (hj.trans hji) hi
    exact ⟨i', hji.trans hi', hpeek⟩
  have hto : ∀ response, (π.state j).core.callers t = .comparing c response →
      (∀ r, response = some r → r.val.messageId ≠ c.msg.messageId) →
      ∃ i, j ≤ i ∧ (π.state i).core.callers t = .peeking c := by
    intro response hpc hother
    have hmove : ∃ i, j ≤ i ∧ (π.state i).core.callers t = .timing c := by
      refine moves_on hattended hcall hqueue (fun locked s hpc _ => ?_) hj hpc
      cases response with
      | none => simp [callerStep, hpc, callers_setCaller]
      | some r => simp [callerStep, hpc, hother r rfl, callers_setCaller]
    obtain ⟨i, hji, hi⟩ := hmove
    obtain ⟨i', hi', hpeek⟩ := htiming i (hj.trans hji) hi
    exact ⟨i', hji.trans hi', hpeek⟩
  have hc := hcall j hj
  cases hpc : (π.state j).core.callers t with
  | idle => rw [hpc] at hc; cases hc
  | testing c' => rw [hpc] at hc; cases hc; exact htesting j hj hpc
  | peeking c' => rw [hpc] at hc; cases hc; exact ⟨j, le_refl j, hpc⟩
  | removing c' r => rw [hpc] at hc; cases hc; exact absurd hpc (not_removing hattended hcall hj r)
  | timing c' => rw [hpc] at hc; cases hc; exact htiming j hj hpc
  | comparing c' response =>
    rw [hpc] at hc
    cases hc
    refine hto response hpc ?_
    rintro r rfl hid
    -- otherwise it would go on to remove it
    have hmove : ∃ i, j ≤ i ∧ (π.state i).core.callers t = .removing c r :=
      moves_on hattended hcall hqueue
        (fun locked s hpc _ => by simp [callerStep, hpc, hid, callers_setCaller]) hj hpc
    obtain ⟨i, hji, hi⟩ := hmove
    exact not_removing hattended hcall (hj.trans hji) r hi

/-- A call whose response stays at the back does not go on for ever. -/
theorem not_hidden {p : SharedPtr PicoMessage} (hlast : q.getLast? = some p)
    (hid : p.val.messageId = c.msg.messageId) (htime : c.timedOut = false) : False := by
  have hne : q ≠ [] := by
    rintro rfl
    cases hlast
  have hpeeks : ∀ k', ∃ i, k' ≤ i ∧ (∃ c, (π.state i).core.callers t = .peeking c) ∧
      ∃ locked, π.label i = some (.caller t locked) := by
    intro k'
    obtain ⟨j, hj, hpc⟩ :=
      comes_to_peek hattended hcall hqueue hne htime (Nat.le_max_left k k')
    obtain ⟨i, locked, hji, hsame, hl, -⟩ :=
      next_step hattended hcall ((Nat.le_max_left k k').trans hj)
    exact ⟨i, ((Nat.le_max_right k k').trans hj).trans hji, ⟨c, hsame.trans hpc⟩, locked, hl⟩
  obtain ⟨i, hki, ⟨c', hpc⟩, hl⟩ := hattended.locks hpeeks k
  have hc := hcall i hki
  rw [hpc] at hc
  cases hc
  -- it sees the response, and removes it
  have hseen : (π.state (i + 1)).core.callers t = .comparing c (some p) := by
    rw [(π.fires i _ hl).2]
    change (callerStep X t true (π.state i).core).callers t = _
    simp [callerStep, hpc, hqueue i hki, peek, hlast, callers_setCaller]
  have hki' : k ≤ i + 1 := hki.trans (Nat.le_succ i)
  have hmove : ∃ j, i + 1 ≤ j ∧ (π.state j).core.callers t = .removing c p :=
    moves_on hattended hcall hqueue
      (fun locked s hpc _ => by simp [callerStep, hpc, hid, callers_setCaller]) hki' hseen
  obtain ⟨j, hj, hremoving⟩ := hmove
  exact not_removing hattended hcall (hki'.trans hj) p hremoving

end Hidden

/-! ## Every response has its caller -/

omit [DecidableEq T] in
theorem mem_responses_of_queue {s : PicoDB.State T} {p : SharedPtr PicoMessage}
    (hp : p ∈ s.responseQueue) : p.val ∈ responses s :=
  List.mem_map_of_mem (List.mem_append_left _ hp)

/-- A response that waits is to no request of a call that came back. -/
theorem not_returned {s : PicoDB.State T} (h : Reachable (system X T) s)
    (hecho : ∀ m ∈ s.issued, Echoed X m) (hids : Distinct s) {p : SharedPtr PicoMessage}
    (hp : p ∈ s.responseQueue) {e : Call × SharedPtr PicoMessage} (he : e ∈ s.returned) :
    e.1.msg.messageId ≠ p.val.messageId := by
  intro heq
  have hresponse : e.2.val ∈ responses s :=
    List.mem_map_of_mem (List.mem_append_right _ (List.mem_map_of_mem he))
  obtain ⟨m, hm, hjson, hid⟩ := request_of_response h hecho hids (mem_responses_of_queue hp)
  obtain ⟨m', hm', hjson', hid'⟩ := request_of_response h hecho hids hresponse
  have hown := ((calls h hids).returned e he).2
  have hsame : m' = m :=
    List.inj_on_of_nodup_map hids hm' hm (hid'.symm.trans (hown.trans (heq.trans hid)))
  -- its body would be at two places
  have hnodup : (places s).Nodup :=
    (conserved h hecho hids).bodies.nodup_iff.mpr (nodup_bodies hecho hids)
  rw [places, List.nodup_append] at hnodup
  refine hnodup.2.2 _ (List.mem_append_right _ (List.mem_map_of_mem hp)) _
    (List.mem_map_of_mem he) ?_
  rw [hjson, hjson', hsame]

theorem exists_caller {s : State T} (h : Rests X s) (hecho : ∀ m ∈ s.core.issued, Echoed X m)
    {p : SharedPtr PicoMessage} (hp : p ∈ s.core.responseQueue) :
    ∃ t c, (s.core.callers t).call = some c ∧ p.val.messageId = c.msg.messageId ∧
      c.timedOut = false := by
  have hreachable := h.inv.reachable
  obtain ⟨m, hm, -, hid⟩ := request_of_response hreachable hecho h.ids (mem_responses_of_queue hp)
  rcases waited hreachable m hm with (⟨e, he, heq⟩ | ⟨e, he, -⟩) | ⟨t, c, hc, rfl⟩
  · exact absurd (heq.trans hid.symm) (not_returned hreachable hecho h.ids hp he)
  · rw [h.patient.1] at he
    cases he
  · exact ⟨t, c, hc, hid, h.patient.2 t c hc⟩

/-! ## The queue empties -/

section Empties

variable {π : Path (wire X T)} {k : Nat}

/-- While the queue stays what it is, a call goes on. -/
theorem call_stays (hrests : ∀ j, k ≤ j → Rests X (π.state j))
    (hqueue : ∀ j, k ≤ j → (π.state j).core.responseQueue = (π.state k).core.responseQueue) {t : T}
    {c : Call} (hc : ((π.state k).core.callers t).call = some c) :
    ∀ j, k ≤ j → ((π.state j).core.callers t).call = some c := by
  intro j hj
  induction j, hj using Nat.le_induction with
  | base => exact hc
  | succ j hj ih =>
    cases hl : π.label j with
    | none => rwa [π.stutters j hl]
    | some l =>
      obtain ⟨hg, hnext⟩ := π.fires j l hl
      by_cases hmine : ∃ locked, l = .caller t locked
      · obtain ⟨locked, rfl⟩ := hmine
        have hsame := (hqueue (j + 1) (hj.trans (Nat.le_succ j))).trans (hqueue j hj).symm
        have hcore : (π.state (j + 1)).core = callerStep X t locked (π.state j).core :=
          congrArg State.core hnext
        rw [hcore] at hsame ⊢
        have hmoves := callerStep_moves (X := X) locked ih
        generalize callerStep X t locked (π.state j).core = s' at hmoves hsame ⊢
        cases hmoves with
        | goesOn hcall => rw [callers_setCaller, if_pos rfl, hcall]
        | returns hpc =>
          have hlt := length_remove_lt (hrests j hj).inv (hrests j hj).ids hpc
          have hlength := congrArg List.length hsame
          simp only [setCaller] at hlength
          omega
        | givesUp htime =>
          rw [(hrests j hj).patient.2 t c ih] at htime
          cases htime
      · rw [hnext, callers_of_other hg hmine (Polling.ne_idle_of_call ih), ih]

/-- Where everything is done, the callers take what waits in `responseQueue_`. -/
theorem queue_empties (hrests : ∀ j, k ≤ j → Rests X (π.state j))
    (hecho : ∀ j, k ≤ j → ∀ m ∈ (π.state j).core.issued, Echoed X m)
    (hsettles : Settles π) (hattended : ∀ t, Attended π t) :
    ∃ j, k ≤ j ∧ (π.state j).core.responseQueue = [] := by
  have hshrinks : ∀ j, k ≤ j →
      (π.state (j + 1)).core.responseQueue = (π.state j).core.responseQueue ∨
        (π.state (j + 1)).core.responseQueue.length < (π.state j).core.responseQueue.length := by
    intro j hj
    cases hl : π.label j with
    | none => exact Or.inl (by rw [π.stutters j hl])
    | some l =>
      obtain ⟨hg, hnext⟩ := π.fires j l hl
      obtain ⟨hintact, hissue⟩ := hsettles j l hl
      rw [hnext]
      exact (shrinks_step l hg hintact hissue (hrests j hj)).2
  obtain ⟨i, hki, hconst⟩ := π.eventually_const (fun s => s.core.responseQueue.length)
    (fun j hj => (hshrinks j hj).elim (fun h => (congrArg List.length h).le) Nat.le_of_lt)
  refine ⟨i, hki, ?_⟩
  -- from there on the queue is the same, so whose response is at the back would have found it
  have hqueue : ∀ j, i ≤ j →
      (π.state j).core.responseQueue = (π.state i).core.responseQueue := by
    intro j hj
    induction j, hj using Nat.le_induction with
    | base => rfl
    | succ j hj ih =>
      rcases hshrinks j (hki.trans hj) with hsame | hless
      · exact hsame.trans ih
      · have hbefore := hconst j hj
        have hafter := hconst (j + 1) (hj.trans (Nat.le_succ j))
        omega
  by_contra hne
  obtain ⟨p, hlast⟩ : ∃ p, (π.state i).core.responseQueue.getLast? = some p :=
    ⟨_, List.getLast?_eq_some_getLast hne⟩
  have hlater : ∀ j, i ≤ j → Rests X (π.state j) := fun j hj => hrests j (hki.trans hj)
  obtain ⟨t, c, hc, hid, htime⟩ :=
    exists_caller (hrests i hki) (hecho i hki) (List.mem_of_getLast? hlast)
  exact not_hidden (hattended t) (call_stays hlater hqueue hc) hqueue hlast hid htime

end Empties

section Jsoncpp

variable {scanDouble : Bytes → Option UInt64} {stdHash : Bytes → UInt64}

/-- Where nothing waits in `responseQueue_`, every call has come back. -/
theorem returned_of_empty {s : State T} (h : Rests (jsoncpp scanDouble stdHash) s)
    (hplain : ∀ m ∈ s.core.issued, Plain m) (hempty : s.core.responseQueue = []) {m : PicoMessage}
    (hm : m ∈ s.core.issued) : ∃ e ∈ s.core.returned, e.1.msg = m ∧
      e.2.val = m.readAs (jsoncpp scanDouble stdHash) m.json_form_of_message := by
  have hresponse := responses_of_done h.inv hplain h.ids h.done hm
  rw [responses, hempty, List.nil_append, List.map_map] at hresponse
  obtain ⟨e, he, heq⟩ := List.mem_map.mp hresponse
  obtain ⟨hissued, hid⟩ := (calls h.inv.reachable h.ids).returned e he
  refine ⟨e, he, List.inj_on_of_nodup_map h.ids hissued hm ?_, heq⟩
  rw [← hid, show e.2.val = _ from heq, readAs_messageId (hplain m hm).id]

/-- **Every call comes back.** On every fair path whose steps are intact and
issue nothing more, from wherever such steps lead, with deliverable requests of
distinct ids, threads that are scheduled and no call that is out of time: there
is a moment when all threads are out of their calls, and each request was
answered with what was read from its own text. -/
theorem all_returned {π : Path (wire (jsoncpp scanDouble stdHash) T)}
    {tr : List (State T × Label T)}
    (hrun : Run (wire (jsoncpp scanDouble stdHash) T) tr (π.state 0))
    (hintact : ∀ p ∈ tr, Intact p.1 p.2) (hdeliverable : Deliverable (π.state 0).core)
    (hids : Distinct (π.state 0).core) (hpatient : Patient (π.state 0).core)
    (hsettles : Settles π) (hfair : Fair π) (hattended : ∀ t, Attended π t) :
    ∃ k, (∀ t, (π.state k).core.callers t = .idle) ∧
      ∀ m ∈ (π.state 0).core.issued, ∃ e ∈ (π.state k).core.returned, e.1.msg = m ∧
        e.2.val = m.readAs (jsoncpp scanDouble stdHash) m.json_form_of_message := by
  have hfit := fit_of_deliverable hrun hdeliverable
  have hinv := inv_of_run hrun hintact hfit
  have hpath := inv_of_path hinv hfit hsettles
  obtain ⟨d, hdone⟩ := done_of_fair hinv hfit hsettles hfair
  have hpatientd : Patient (π.state d).core :=
    π.invariant_from (fun _ l => ¬ l.IsIssue) (fun s => Patient s.core) hpatient
      (fun l s hg hl hs => patient_step l hg hl hs) d (Nat.zero_le d)
      fun i _ _ l hl => (hsettles i l hl).2
  have hassumed := fun k => assumed_of_path (hpath k).2.2 hdeliverable hids
  have hrests : ∀ j, d ≤ j → Rests (jsoncpp scanDouble stdHash) (π.state j) := fun j hj =>
    π.invariant_from (fun s l => Intact s l ∧ ¬ l.IsIssue) (Rests _)
      ⟨(hpath d).1, (hpath d).2.1, (hassumed d).2, hpatientd, hdone⟩
      (fun l s hg hC hs => rests_step l hg hC.1 hC.2 hs) j hj fun i _ _ l hl => hsettles i l hl
  obtain ⟨k, hdk, hempty⟩ := queue_empties hrests
    (fun j _ m hm => (echoed_of_plain (hpath j).1.reachable hm ((hassumed j).1 m hm)).2)
    hsettles hattended
  have hreturned := fun {m} =>
    returned_of_empty (m := m) (hrests k hdk) (hassumed k).1 hempty
  refine ⟨k, fun t => ?_, fun m hm => hreturned ((hpath k).2.2 ▸ hm)⟩
  -- a thread in a call would wait for a response that another call took
  by_contra hbusy
  obtain ⟨c, hc⟩ := call_of_ne_idle hbusy
  have hcaller := (calls (hrests k hdk).inv.reachable (hassumed k).2).caller t c hc
  obtain ⟨e, he, hmsg, -⟩ := hreturned hcaller.issued
  exact hcaller.going (Or.inl ⟨e, he, congrArg PicoMessage.messageId hmsg⟩)

end Jsoncpp

theorem wireRun_calls :
    (wireStart.core.gaveUp = [] ∧
        ∀ t, (wireStart.core.callers t).call.any Call.timedOut = false) ∧
      ∀ t, wireEnd.core.callers t = .idle := by
  decide +kernel

/-- The requests are pending at the start of the path. -/
theorem all_returned_wireRun :
    ∃ π : Path (wire library Bool), (π.state 0).core.requestQueue.length = 2 ∧
      ∃ k, (∀ t, (π.state k).core.callers t = .idle) ∧
        ∀ m ∈ (π.state 0).core.issued, ∃ e ∈ (π.state k).core.returned, e.1.msg = m ∧
          e.2.val = m.readAs library m.json_form_of_message := by
  obtain ⟨π, hzero, ⟨hsettles, hfair⟩, htail⟩ := exists_wirePath
  obtain ⟨⟨hrun, hintact⟩, hdeliverable, hids⟩ := wireStart_run
  obtain ⟨-, -, -, hlength, -⟩ := wireRun_fires
  obtain ⟨⟨hgaveUp, htime⟩, hidle⟩ := wireRun_calls
  have hpatient : Patient wireStart.core := by
    refine ⟨hgaveUp, fun t c hc => ?_⟩
    have ht := htime t
    rwa [hc] at ht
  have hattended : ∀ t, Attended π t := by
    intro t
    constructor
    · refine fun k => ⟨_, Nat.le_add_left k wireRest.length, Or.inr ?_⟩
      rw [(htail k).1, hidle]
    · intro hpeeks
      -- behind the run there are no steps of the thread
      obtain ⟨j, hj, -, locked, hl⟩ := hpeeks wireRest.length
      obtain ⟨k, rfl⟩ := Nat.exists_eq_add_of_le hj
      rw [(htail k).2] at hl
      cases hl
  rw [← hzero] at hrun hdeliverable hids hlength hpatient
  exact ⟨π, hlength, all_returned hrun hintact hdeliverable hids hpatient hsettles hfair hattended⟩

end PicoDB.Wire
