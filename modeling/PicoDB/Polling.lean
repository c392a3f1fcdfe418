import PicoDB.Responses

/-!
# PicoDB.Polling — the loop of `getTheResponseOfRequest`

The loop looks at the back of `responseQueue_` and at two readings of the clock
that were both taken before it began. So it finds its response only when that
is the last one (`finds_iff`), and it gives up only when the time was over
before it began (`gives_up_iff`: by the code's own `double`s, and to the nanosecond
for timeouts of up to 104 days); otherwise it goes on for ever.

Both are about infinite paths of the whole system on which the thread of the
call keeps being scheduled.
-/

namespace PicoDB.Polling

open ConcurrentVector Lts Responses

variable {T : Type} [DecidableEq T] {X : Externals}

/-! ## Calls on a path -/

/-- The call `getTheResponseOfRequest(msg, userTimeOut)` on a clock: `t1` and
`t2` are its first two readings, and there are no others. -/
def callOn (clock : Nat → Int) (msg : PicoMessage) (userTimeOut : Int) : Call :=
  { msg, t1 := clock 0, t2 := clock 1, userTimeOut }

/-- Thread `t` is in call `c`, and has been since the path began. -/
def InCall (π : Path (system X T)) (t : T) (c : Call) (k : Nat) : Prop :=
  ∀ i ≤ k, ((π.state i).callers t).call = some c

/-- A step of thread `t` in `getTheResponseOfRequest`. -/
def StepOf (t : T) (l : Label T) : Prop := ∃ locked, l = .caller t locked

/-- As long as it is in the call, thread `t` takes a step sooner or later. -/
def Scheduled (π : Path (system X T)) (t : T) (c : Call) : Prop :=
  ∀ k, InCall π t c k → ∃ j, k ≤ j ∧ ∃ l, π.label j = some l ∧ StepOf t l

/-- A step that leaves the queue to thread `t`: it does not change the queue,
or it is one of `t`, whose `peek` gets the lock. -/
def LeavesQueue (X : Externals) (t : T) (s : State T) (l : Label T) : Prop :=
  l = .caller t true ∨
    ¬ StepOf t l ∧ ((system X T).update l s).responseQueue = s.responseQueue

/-- As long as the call lasts, no other thread touches the queue. -/
def Undisturbed (π : Path (system X T)) (t : T) (c : Call) : Prop :=
  ∀ k, InCall π t c k → ∀ l, π.label k = some l → LeavesQueue X t (π.state k) l

/-- As long as the call lasts, no response to it is in the queue. -/
def Unanswered (π : Path (system X T)) (t : T) (c : Call) : Prop :=
  ∀ k, InCall π t c k → ∀ p ∈ (π.state k).responseQueue, p.val.messageId ≠ c.msg.messageId

/-! ## Steps of a call -/

theorem ne_idle_of_call {pc : CallerPc} {c : Call} (h : pc.call = some c) : pc ≠ .idle := by
  rintro rfl
  cases h

/-- Others leave a thread that is in a call where it is. -/
theorem callers_of_not_stepOf {t : T} {l : Label T} {s : State T} (hl : ¬ StepOf t l)
    (hg : (system X T).guard l s) (hcall : s.callers t ≠ .idle) :
    ((system X T).update l s).callers t = s.callers t := by
  cases l with
  | issue t' a draw t1 t2 userTimeOut =>
    have hne : t ≠ t' := by
      rintro rfl
      exact hcall hg
    show (setCaller t' _ _).callers t = _
    rw [callers_setCaller, if_neg hne]
    rfl
  | caller t' locked =>
    have hne : t ≠ t' := by
      rintro rfl
      exact hl ⟨locked, rfl⟩
    rw [update_caller]
    unfold callerStep
    repeat' split
    all_goals first
      | rfl
      | rw [callers_setCaller, if_neg hne]
  | driver M => rw [update_driver, (driverStep_sameCalls X M s).callers]
  | session dangling M => rw [update_session, (sessionStep_sameCalls X dangling M s).callers]

/-- The two ways a call ends. -/
theorem call_ends {t : T} {c : Call} {l : Label T} {s : State T} (hg : (system X T).guard l s)
    (hcall : (s.callers t).call = some c)
    (hidle : ((system X T).update l s).callers t = .idle) :
    (∃ p, s.callers t = .removing c p ∧
        ((system X T).update l s).returned = s.returned ++ [(c, p)] ∧
        ((system X T).update l s).gaveUp = s.gaveUp) ∨
      (s.callers t = .timing c ∧ c.timedOut = true ∧
        ((system X T).update l s).returned = s.returned ∧
        ((system X T).update l s).gaveUp = s.gaveUp ++ [(c, c.timeoutResponse X)]) := by
  have hbusy := ne_idle_of_call hcall
  by_cases hl : StepOf t l
  · rcases hl with ⟨locked, rfl⟩
    rw [update_caller] at hidle ⊢
    cases hpc : s.callers t with
    | idle => exact absurd hpc hbusy
    | testing c' =>
      simp only [callerStep, hpc, callers_setCaller, if_true] at hidle
      split at hidle <;> cases hidle
    | peeking c' => simp [callerStep, hpc, callers_setCaller] at hidle
    | comparing c' response =>
      cases response with
      | none => simp [callerStep, hpc, callers_setCaller] at hidle
      | some response =>
        simp only [callerStep, hpc] at hidle
        split at hidle <;> simp [callers_setCaller] at hidle
    | removing c' response =>
      rw [hpc] at hcall
      cases hcall
      left
      refine ⟨response, rfl, ?_, ?_⟩
      · simp only [callerStep, hpc, setCaller]
      · simp only [callerStep, hpc, setCaller]
    | timing c' =>
      rw [hpc] at hcall
      cases hcall
      right
      cases htime : c.timedOut with
      | true =>
        refine ⟨rfl, rfl, ?_, ?_⟩
        · simp only [callerStep, hpc, htime, if_true, setCaller]
        · simp only [callerStep, hpc, htime, if_true, setCaller]
      | false => simp [callerStep, hpc, htime, callers_setCaller] at hidle
  · rw [callers_of_not_stepOf hl hg hbusy] at hidle
    exact absurd hidle hbusy

/-- A step of thread `t` that only takes it to `pc`. -/
theorem callers_of_step {t : T} {locked : Bool} {s : State T} {pc : CallerPc}
    (h : callerStep X t locked s = setCaller t pc s) :
    (callerStep X t locked s).callers t = pc ∧
      (callerStep X t locked s).responseQueue = s.responseQueue := by
  rw [h, callers_setCaller, if_pos rfl]
  exact ⟨rfl, rfl⟩

/-- The step with which a call ends. -/
theorem label_of_idle {π : Path (system X T)} {t : T} {c : Call} {k : Nat} (hin : InCall π t c k)
    (hidle : (π.state (k + 1)).callers t = .idle) :
    ∃ l, (system X T).guard l (π.state k) ∧
      π.state (k + 1) = (system X T).update l (π.state k) := by
  cases hl : π.label k with
  | none =>
    rw [π.stutters k hl] at hidle
    exact absurd hidle (ne_idle_of_call (hin k (le_refl _)))
  | some l => exact ⟨l, π.fires k l hl⟩

/-! ## A call that goes on for ever -/

section Forever

variable {q : List (SharedPtr PicoMessage)} {r : SharedPtr PicoMessage} {c : Call}

/-- The only thread is at `pc`, and nothing else goes on. -/
def alone (q : List (SharedPtr PicoMessage)) (pc : CallerPc) : State Unit :=
  { responseQueue := q, callers := fun _ => pc }

@[simp] theorem alone_responseQueue (pc : CallerPc) : (alone q pc).responseQueue = q := rfl

@[simp] theorem alone_callers (pc : CallerPc) (u : Unit) : (alone q pc).callers u = pc := rfl

@[simp] theorem setCaller_alone (pc pc' : CallerPc) :
    setCaller () pc' (alone q pc) = alone q pc' := by
  have hcallers : Function.update (fun _ : Unit => pc) () pc' = fun _ => pc' := by
    funext u
    simp
  simp only [setCaller, alone, hcallers]

/-- The states of a call that never ends. -/
def Polls (q : List (SharedPtr PicoMessage)) (c : Call) (s : State Unit) : Prop :=
  s = alone q (.testing c) ∨ s = alone q (.peeking c) ∨ s = alone q (.comparing c q.getLast?) ∨
    s = alone q (.timing c)

theorem polls_step (hlast : q.getLast? = some r) (hid : r.val.messageId ≠ c.msg.messageId)
    (htime : c.timedOut = false) {s : State Unit} (h : Polls q c s) :
    Polls q c (callerStep X () true s) := by
  have hne : q ≠ [] := by
    rintro rfl
    cases hlast
  rcases h with rfl | rfl | rfl | rfl
  · have hstep : callerStep X () true (alone q (.testing c)) = alone q (.peeking c) := by
      simp [callerStep, hne]
    exact Or.inr (Or.inl hstep)
  · have hstep : callerStep X () true (alone q (.peeking c)) =
        alone q (.comparing c q.getLast?) := by
      simp [callerStep, peek]
    exact Or.inr (Or.inr (Or.inl hstep))
  · have hstep : callerStep X () true (alone q (.comparing c q.getLast?)) =
        alone q (.timing c) := by
      simp [callerStep, hlast, hid]
    exact Or.inr (Or.inr (Or.inr hstep))
  · have hstep : callerStep X () true (alone q (.timing c)) = alone q (.testing c) := by
      simp [callerStep, htime]
    exact Or.inl hstep

theorem polls_on (hlast : q.getLast? = some r) (hid : r.val.messageId ≠ c.msg.messageId)
    (htime : c.timedOut = false) (k : Nat) :
    Polls q c (((system X Unit).update (.caller () true))^[k] (alone q (.testing c))) := by
  induction k with
  | zero => exact Or.inl rfl
  | succ k ih =>
    rw [Function.iterate_succ_apply']
    exact polls_step hlast hid htime ih

theorem Polls.ne_idle {s : State Unit} (h : Polls q c s) : s.callers () ≠ .idle := by
  rcases h with rfl | rfl | rfl | rfl <;> exact fun hidle => CallerPc.noConfusion hidle

/-- The path of that call. -/
def pollingPath (X : Externals) (hlast : q.getLast? = some r)
    (hid : r.val.messageId ≠ c.msg.messageId) (htime : c.timedOut = false) :
    Path (system X Unit) :=
  .repeating (system X Unit) (.caller () true) (alone q (.testing c)) fun k =>
    (polls_on hlast hid htime k).ne_idle

theorem scheduled_repeating {s : State Unit} (h) :
    Scheduled (.repeating (system X Unit) (.caller () true) s h) () c :=
  fun k _ => ⟨k, le_refl k, _, rfl, true, rfl⟩

theorem undisturbed_repeating {s : State Unit} (h) :
    Undisturbed (.repeating (system X Unit) (.caller () true) s h) () c := by
  intro k _ l hl
  cases hl
  exact Or.inl rfl

theorem unanswered_pollingPath (X : Externals) (hlast : q.getLast? = some r)
    (hid : r.val.messageId ≠ c.msg.messageId) (htime : c.timedOut = false)
    (hnone : ∀ p ∈ q, p.val.messageId ≠ c.msg.messageId) :
    Unanswered (pollingPath X hlast hid htime) () c := by
  intro k _ p hp
  have hqueue : ((pollingPath X hlast hid htime).state k).responseQueue = q := by
    rcases polls_on (X := X) hlast hid htime k with h | h | h | h
    all_goals
      show (((system X Unit).update (.caller () true))^[k] (alone q (.testing c))).responseQueue = q
      rw [h, alone_responseQueue]
  rw [hqueue] at hp
  exact hnone p hp

/-- The request with id `1`, and responses with the ids `1` and `2`. -/
def sampleRequest : PicoMessage := { messageId := ascii "1" }
def wanted : SharedPtr PicoMessage := ⟨0, { messageId := ascii "1" }⟩
def unclaimed : SharedPtr PicoMessage := ⟨1, { messageId := ascii "2" }⟩

/-- A clock that goes on by a second at every reading. -/
def ticking (i : Nat) : Int := i * 10 ^ 9

theorem ten_seconds_ahead : (callOn ticking sampleRequest 10).timedOut = false := by
  decide +kernel

end Forever

/-! ## Finding a response -/

/-- The call comes back with a response to it, which is taken out of the queue
the path began with. -/
def Finds (π : Path (system X T)) (t : T) (c : Call) : Prop :=
  ∃ k p a b, InCall π t c k ∧ (π.state (k + 1)).callers t = .idle ∧
    (π.state (k + 1)).returned = (π.state k).returned ++ [(c, p)] ∧
    p.val.messageId = c.msg.messageId ∧
    (π.state 0).responseQueue = a ++ p :: b ∧ (π.state (k + 1)).responseQueue = a ++ b

/-- What a thread knows of queue `q`: it has seen the back of it, and removes
only what answers its request. -/
def Seen (q : List (SharedPtr PicoMessage)) : CallerPc → Prop
  | .comparing _ response => response = q.getLast?
  | .removing c response =>
    q.getLast? = some response ∧ response.val.messageId = c.msg.messageId
  | _ => True

/-- Step lemma: within a call nothing is removed, and what is known stays true. -/
theorem seen_step {t : T} {c : Call} {l : Label T} {s : State T} {q : List (SharedPtr PicoMessage)}
    (hg : (system X T).guard l s) (hl : LeavesQueue X t s l) (hcall : (s.callers t).call = some c)
    (h : s.responseQueue = q ∧ Seen q (s.callers t))
    (hcall' : (((system X T).update l s).callers t).call = some c) :
    ((system X T).update l s).responseQueue = q ∧
      Seen q (((system X T).update l s).callers t) := by
  rcases h with ⟨hq, hseen⟩
  rcases hl with rfl | ⟨hl, hsame⟩
  · rw [update_caller] at hcall' ⊢
    cases hpc : s.callers t with
    | idle => rw [hpc] at hcall; cases hcall
    | testing c' =>
      simp only [callerStep, hpc, callers_setCaller, if_true]
      refine ⟨hq, ?_⟩
      split <;> trivial
    | peeking c' =>
      simp only [callerStep, hpc, callers_setCaller, if_true]
      exact ⟨hq, by rw [← hq]; rfl⟩
    | comparing c' response =>
      cases response with
      | none => simpa [callerStep, hpc, setCaller, Seen] using hq
      | some response =>
        rw [hpc] at hseen
        simp only [callerStep, hpc]
        split
        · rename_i hid
          simp only [callers_setCaller, if_true]
          exact ⟨hq, hseen.symm, hid⟩
        · simp only [callers_setCaller, if_true]
          exact ⟨hq, trivial⟩
    | removing c' response =>
      -- the call would be over
      simp [callerStep, hpc, callers_setCaller, CallerPc.call] at hcall'
    | timing c' =>
      simp only [callerStep, hpc] at hcall' ⊢
      split
      · rename_i htime
        simp [htime, callers_setCaller, CallerPc.call] at hcall'
      · simp only [callers_setCaller, if_true]
        exact ⟨hq, trivial⟩
  · rw [hsame, callers_of_not_stepOf hl hg (ne_idle_of_call hcall)]
    exact ⟨hq, hseen⟩

/-- What is found is the last response. -/
theorem last_of_finds {π : Path (system X T)} {t : T} {c : Call}
    (hstart : (π.state 0).callers t = .testing c) (halone : Undisturbed π t c)
    (h : Finds π t c) :
    ∃ p, (π.state 0).responseQueue.getLast? = some p ∧ p.val.messageId = c.msg.messageId := by
  rcases h with ⟨k, p, a, b, hin, hidle, hreturned, -, -, -⟩
  have hseen : (π.state k).responseQueue = (π.state 0).responseQueue ∧
      Seen (π.state 0).responseQueue ((π.state k).callers t) := by
    refine π.invariant_while (fun s => (s.callers t).call = some c) (LeavesQueue X t)
      (fun s => s.responseQueue = (π.state 0).responseQueue ∧
        Seen (π.state 0).responseQueue (s.callers t)) ?_ halone ?_ k hin
    · rw [hstart]
      exact ⟨rfl, trivial⟩
    · exact fun l s hg hl hcall hinv hcall' => seen_step hg hl hcall hinv hcall'
  obtain ⟨l, hg, hnext⟩ := label_of_idle hin hidle
  rw [hnext] at hidle hreturned
  rcases call_ends hg (hin k (le_refl _)) hidle with ⟨p', hpc, -, -⟩ | ⟨-, -, hkept, -⟩
  · rw [hpc] at hseen
    exact ⟨p', hseen.2⟩
  · rw [hkept] at hreturned
    simp at hreturned

/-- The call is on its way to response `r`. -/
def Heading (q : List (SharedPtr PicoMessage)) (t : T) (c : Call) (r : SharedPtr PicoMessage)
    (s : State T) : Prop :=
  s.responseQueue = q ∧
    (s.callers t = .testing c ∨ s.callers t = .peeking c ∨ s.callers t = .comparing c (some r) ∨
      s.callers t = .removing c r)

/-- How many steps it still has to take. -/
def stepsToGo : CallerPc → Nat
  | .testing _ => 3
  | .peeking _ => 2
  | .comparing _ _ => 1
  | _ => 0

/-- The step that ends the call with response `r`. -/
def Takes (t : T) (c : Call) (r : SharedPtr PicoMessage) (s s' : State T) : Prop :=
  s'.callers t = .idle ∧ s'.returned = s.returned ++ [(c, r)] ∧
    s'.responseQueue = remove (fun p => p.addr == r.addr) s.responseQueue

/-- Step lemma: a step of the call brings it nearer. -/
theorem heading_step {q : List (SharedPtr PicoMessage)} {t : T} {c : Call}
    {r : SharedPtr PicoMessage} {s : State T} (hlast : q.getLast? = some r)
    (hid : r.val.messageId = c.msg.messageId) (h : Heading q t c r s) :
    Takes t c r s (callerStep X t true s) ∨
      (Heading q t c r (callerStep X t true s) ∧
        stepsToGo ((callerStep X t true s).callers t) < stepsToGo (s.callers t)) := by
  rcases h with ⟨hq, hpc⟩
  have hmoves : ∀ pc, callerStep X t true s = setCaller t pc s →
      (pc = .testing c ∨ pc = .peeking c ∨ pc = .comparing c (some r) ∨ pc = .removing c r) →
      stepsToGo pc < stepsToGo (s.callers t) →
      Heading q t c r (callerStep X t true s) ∧
        stepsToGo ((callerStep X t true s).callers t) < stepsToGo (s.callers t) := by
    intro pc hstep hheading hless
    obtain ⟨hat, hsame⟩ := callers_of_step hstep
    rw [Heading, hat, hsame]
    exact ⟨⟨hq, hheading⟩, hless⟩
  rcases hpc with hpc | hpc | hpc | hpc
  · have hne : s.responseQueue ≠ [] := by
      rw [hq]
      rintro rfl
      cases hlast
    exact Or.inr (hmoves (.peeking c) (by simp [callerStep, hpc, hne]) (by simp)
      (by simp [hpc, stepsToGo]))
  · exact Or.inr (hmoves (.comparing c (some r)) (by simp [callerStep, hpc, peek, hq, hlast])
      (by simp) (by simp [hpc, stepsToGo]))
  · exact Or.inr (hmoves (.removing c r) (by simp [callerStep, hpc, hid]) (by simp)
      (by simp [hpc, stepsToGo]))
  · left
    simp [Takes, callerStep, hpc, setCaller]

omit [DecidableEq T] in
theorem Heading.call {q : List (SharedPtr PicoMessage)} {t : T} {c : Call}
    {r : SharedPtr PicoMessage} {s : State T} (h : Heading q t c r s) :
    (s.callers t).call = some c := by
  rcases h with ⟨-, hpc | hpc | hpc | hpc⟩ <;> rw [hpc] <;> rfl

/-- A response at the back is found. -/
theorem finds_of_last {π : Path (system X T)} {t : T} {c : Call} {p : SharedPtr PicoMessage}
    (hstart : (π.state 0).callers t = .testing c)
    (hdistinct : ((π.state 0).responseQueue.map SharedPtr.addr).Nodup)
    (halone : Undisturbed π t c) (hsched : Scheduled π t c)
    (hlast : (π.state 0).responseQueue.getLast? = some p)
    (hid : p.val.messageId = c.msg.messageId) : Finds π t c := by
  have hown : ∀ l s, LeavesQueue X t s l → StepOf t l →
      (system X T).update l s = callerStep X t true s := by
    intro l s hl hstep
    rcases hl with rfl | ⟨hl, -⟩
    · rfl
    · exact absurd hstep hl
  have hstep : ∀ l s, (system X T).guard l s → LeavesQueue X t s l →
      Heading (π.state 0).responseQueue t c p s →
      Takes t c p s ((system X T).update l s) ∨
        (Heading (π.state 0).responseQueue t c p ((system X T).update l s) ∧
          stepsToGo (((system X T).update l s).callers t) ≤ stepsToGo (s.callers t)) := by
    intro l s hg hl h
    by_cases hstep : StepOf t l
    · rw [hown l s hl hstep]
      rcases heading_step hlast hid h with htakes | ⟨hnext, hless⟩
      · exact Or.inl htakes
      · exact Or.inr ⟨hnext, hless.le⟩
    · -- a step of another thread
      have hsame := (hl.resolve_left fun he => hstep ⟨true, he⟩).2
      have hcallers := callers_of_not_stepOf hstep hg (ne_idle_of_call h.call)
      rw [hcallers]
      exact Or.inr ⟨⟨hsame.trans h.1, hcallers ▸ h.2⟩, le_refl _⟩
  have hhelp : ∀ l s, (system X T).guard l s → LeavesQueue X t s l → StepOf t l →
      Heading (π.state 0).responseQueue t c p s →
      Takes t c p s ((system X T).update l s) ∨
        stepsToGo (((system X T).update l s).callers t) < stepsToGo (s.callers t) := by
    intro l s _ hl hstep h
    rw [hown l s hl hstep]
    exact (heading_step hlast hid h).imp_right And.right
  obtain ⟨k, hin, hidle, hreturned, hqueue⟩ :=
    π.until_of_variant (Heading (π.state 0).responseQueue t c p) (Takes t c p) (LeavesQueue X t)
      (StepOf t) (fun s => stepsToGo (s.callers t)) ⟨rfl, Or.inl hstart⟩
      (fun k hk => halone k fun i hi => (hk i hi).call)
      (fun k hk => hsched k fun i hi => (hk i hi).call) hstep hhelp
  -- the pointer is at the back and nowhere else
  obtain ⟨a, ha⟩ : ∃ a, (π.state 0).responseQueue = a ++ [p] :=
    List.getLast?_eq_some_iff.mp hlast
  refine ⟨k, p, a, [], fun i hi => (hin i hi).call, hidle, hreturned, hid, ha, ?_⟩
  rw [hqueue, (hin k (le_refl _)).1, remove_eq_filter_of_nodup SharedPtr.addr p.addr hdistinct, ha]
  rw [ha, List.map_append, List.nodup_append] at hdistinct
  have hkeep : ∀ x ∈ a, (!(x.addr == p.addr)) = true := by
    intro x hx
    have hne : x.addr ≠ p.addr :=
      hdistinct.2.2 x.addr (List.mem_map_of_mem hx) p.addr (by simp)
    simpa using hne
  rw [List.filter_append, List.filter_eq_self.mpr hkeep]
  simp

/-- **Finding a response.** While no other thread touches the queue, a call
comes back with a response to it, and takes exactly that one out, exactly when
the last response in the queue is one to it. -/
theorem finds_iff {π : Path (system X T)} {t : T} {c : Call}
    (hstart : (π.state 0).callers t = .testing c)
    (hdistinct : ((π.state 0).responseQueue.map SharedPtr.addr).Nodup)
    (halone : Undisturbed π t c) (hsched : Scheduled π t c) :
    Finds π t c ↔
      ∃ p, (π.state 0).responseQueue.getLast? = some p ∧
        p.val.messageId = c.msg.messageId := by
  constructor
  · exact last_of_finds hstart halone
  · intro hmatch
    rcases hmatch with ⟨p, hlast, hid⟩
    exact finds_of_last hstart hdistinct halone hsched hlast hid

theorem finds_iff_unclaimed :
    let X : Externals := { parse := fun _ => none, stdHash := fun _ => 0 }
    let c := callOn ticking sampleRequest 10
    let π : Path (system X Unit) := pollingPath (q := [wanted, unclaimed]) (c := c) X rfl
      (by decide) ten_seconds_ahead
    Finds π () c ↔
      ∃ p, [wanted, unclaimed].getLast? = some p ∧ p.val.messageId = c.msg.messageId := by
  intro X c π
  exact finds_iff (π := π) rfl (by decide) (undisturbed_repeating _) (scheduled_repeating _)

/-- The response to the call lies in front of one that nobody claims. -/
theorem response_not_found :
    let X : Externals := { parse := fun _ => none, stdHash := fun _ => 0 }
    let c := callOn ticking sampleRequest 10
    let π : Path (system X Unit) := pollingPath (q := [wanted, unclaimed]) (c := c) X rfl
      (by decide) ten_seconds_ahead
    (∃ p ∈ (π.state 0).responseQueue, p.val.messageId = c.msg.messageId) ∧ Undisturbed π () c ∧
      Scheduled π () c ∧ ¬ Finds π () c := by
  intro X c π
  refine ⟨⟨wanted, by decide, rfl⟩, undisturbed_repeating _, scheduled_repeating _,
    fun hfinds => ?_⟩
  obtain ⟨p, hlast, hid⟩ := last_of_finds (π := π) rfl (undisturbed_repeating _) hfinds
  have hp : unclaimed = p := Option.some.inj hlast
  subst hp
  exact absurd hid (by decide)

/-! ## Giving up -/

/-- The call comes back with a message to its request that reports the timeout,
and none of its steps changes the queue. -/
def GivesUp (π : Path (system X T)) (t : T) (c : Call) : Prop :=
  ∃ k reply, InCall π t c k ∧ (π.state (k + 1)).callers t = .idle ∧
    (π.state (k + 1)).gaveUp = (π.state k).gaveUp ++ [(c, reply)] ∧
    reply.key = c.msg.key ∧ reply.messageId = c.msg.messageId ∧
    reply.value = ascii "OPERATION TIMED OUT for this command :  !" ++ c.msg.command ++
      ascii " with this message id : " ++ c.msg.messageId ∧
    ∀ i ≤ k, ∀ l, π.label i = some l → StepOf t l →
      (π.state (i + 1)).responseQueue = (π.state i).responseQueue

/-- A call that gives up was out of time before it looked. -/
theorem timedOut_of_givesUp {π : Path (system X T)} {t : T} {c : Call} (h : GivesUp π t c) :
    c.timedOut = true := by
  rcases h with ⟨k, reply, hin, hidle, hgave, -⟩
  obtain ⟨l, hg, hnext⟩ := label_of_idle hin hidle
  rw [hnext] at hidle hgave
  rcases call_ends hg (hin k (le_refl _)) hidle with ⟨-, -, -, hkept⟩ | ⟨-, htime, -, -⟩
  · rw [hkept] at hgave
    simp at hgave
  · exact htime

/-- The call has found nothing so far. -/
def Missing (t : T) (c : Call) (s : State T) : Prop :=
  s.callers t = .testing c ∨ s.callers t = .peeking c ∨
    (∃ response, s.callers t = .comparing c response ∧
      ∀ p, response = some p → p.val.messageId ≠ c.msg.messageId) ∨
    s.callers t = .timing c

omit [DecidableEq T] in
theorem Missing.call {t : T} {c : Call} {s : State T} (h : Missing t c s) :
    (s.callers t).call = some c := by
  rcases h with hpc | hpc | ⟨response, hpc, -⟩ | hpc <;> rw [hpc] <;> rfl

/-- The step with which the call gives up. -/
def Abandons (X : Externals) (t : T) (c : Call) (s s' : State T) : Prop :=
  s'.callers t = .idle ∧ s'.gaveUp = s.gaveUp ++ [(c, c.timeoutResponse X)]

/-- Step lemma: a step of the call brings it nearer to its end. -/
theorem missing_step {t : T} {c : Call} {s : State T} (locked : Bool)
    (hnone : ∀ p ∈ s.responseQueue, p.val.messageId ≠ c.msg.messageId)
    (htime : c.timedOut = true) (h : Missing t c s) :
    Abandons X t c s (callerStep X t locked s) ∨
      (Missing t c (callerStep X t locked s) ∧
        stepsToGo ((callerStep X t locked s).callers t) < stepsToGo (s.callers t)) := by
  have hmoves : ∀ pc, callerStep X t locked s = setCaller t pc s →
      (pc = .peeking c ∨ (∃ response, pc = .comparing c response ∧
        ∀ p, response = some p → p.val.messageId ≠ c.msg.messageId) ∨ pc = .timing c) →
      stepsToGo pc < stepsToGo (s.callers t) →
      Missing t c (callerStep X t locked s) ∧
        stepsToGo ((callerStep X t locked s).callers t) < stepsToGo (s.callers t) := by
    intro pc hstep hmissing hless
    rw [Missing, (callers_of_step hstep).1]
    exact ⟨Or.inr hmissing, hless⟩
  rcases h with hpc | hpc | ⟨response, hpc, hresponse⟩ | hpc
  · right
    by_cases hempty : s.responseQueue = []
    · exact hmoves (.timing c) (by simp [callerStep, hpc, hempty]) (by simp)
        (by simp [hpc, stepsToGo])
    · exact hmoves (.peeking c) (by simp [callerStep, hpc, hempty]) (by simp)
        (by simp [hpc, stepsToGo])
  · right
    refine hmoves (.comparing c (peek locked s.responseQueue)) (by simp [callerStep, hpc]) ?_
      (by simp [hpc, stepsToGo])
    exact Or.inr (Or.inl ⟨_, rfl, fun p hp => hnone p (mem_of_peek hp)⟩)
  · right
    cases response with
    | none =>
      exact hmoves (.timing c) (by simp [callerStep, hpc]) (by simp) (by simp [hpc, stepsToGo])
    | some p =>
      exact hmoves (.timing c) (by simp [callerStep, hpc, hresponse p rfl]) (by simp)
        (by simp [hpc, stepsToGo])
  · left
    simp [Abandons, callerStep, hpc, htime, setCaller]

/-- A call that has found nothing leaves the queue alone. -/
theorem missing_queue {t : T} {c : Call} {s : State T} (locked : Bool) (h : Missing t c s) :
    (callerStep X t locked s).responseQueue = s.responseQueue := by
  rcases callerStep_responses X t locked s with ⟨c', p, hpc, -, -⟩ | ⟨hsame, -⟩
  · rcases h with h | h | ⟨response, h, -⟩ | h <;> rw [h] at hpc <;> cases hpc
  · exact hsame

theorem givesUp_of_timedOut {π : Path (system X T)} {t : T} {c : Call}
    (hstart : (π.state 0).callers t = .testing c) (hsched : Scheduled π t c)
    (hunanswered : Unanswered π t c) (htime : c.timedOut = true) : GivesUp π t c := by
  have hstep : ∀ l s, (system X T).guard l s →
      (∀ p ∈ s.responseQueue, p.val.messageId ≠ c.msg.messageId) → Missing t c s →
      Abandons X t c s ((system X T).update l s) ∨
        (Missing t c ((system X T).update l s) ∧
          stepsToGo (((system X T).update l s).callers t) ≤ stepsToGo (s.callers t)) := by
    intro l s hg hnone h
    by_cases hstep : StepOf t l
    · rcases hstep with ⟨locked, rfl⟩
      rcases missing_step locked hnone htime h with hends | ⟨hnext, hless⟩
      · exact Or.inl hends
      · exact Or.inr ⟨hnext, hless.le⟩
    · have hcallers := callers_of_not_stepOf hstep hg (ne_idle_of_call h.call)
      rw [Missing, hcallers]
      exact Or.inr ⟨h, le_refl _⟩
  have hhelp : ∀ l s, (system X T).guard l s →
      (∀ p ∈ s.responseQueue, p.val.messageId ≠ c.msg.messageId) → StepOf t l → Missing t c s →
      Abandons X t c s ((system X T).update l s) ∨
        stepsToGo (((system X T).update l s).callers t) < stepsToGo (s.callers t) := by
    intro l s _ hnone hstep h
    rcases hstep with ⟨locked, rfl⟩
    exact (missing_step locked hnone htime h).imp_right And.right
  obtain ⟨k, hin, hidle, hgave⟩ :=
    π.until_of_variant (Missing t c) (Abandons X t c)
      (fun s _ => ∀ p ∈ s.responseQueue, p.val.messageId ≠ c.msg.messageId)
      (StepOf t) (fun s => stepsToGo (s.callers t)) (Or.inl hstart)
      (fun k hk _ _ => hunanswered k fun i hi => (hk i hi).call)
      (fun k hk => hsched k fun i hi => (hk i hi).call) hstep hhelp
  refine ⟨k, _, fun i hi => (hin i hi).call, hidle, hgave, rfl, rfl, rfl, ?_⟩
  intro i hi l hl hstep
  rcases hstep with ⟨locked, rfl⟩
  rw [(π.fires i _ hl).2, update_caller, missing_queue locked (hin i hi)]

/-! ### The comparison of the times

`timedOut` is about numbers that are rounded. As long as the nanoseconds of the
timeout fit into the 53 bits of a `double`, it says what it is meant to say. -/

theorem double_intCast {n : Int} (h : |n| < 2 ^ 53) : double n = n :=
  Rounding.round_of_fits (Rounding.fits_intCast h)

theorem double_mono {x y : ℚ} (hx : 0 ≤ x) (h : x ≤ y) : double x ≤ double y :=
  Rounding.round_mono (by norm_num) hx h

/-- Below `2 ^ 24` a `double` is less than a nanosecond off. -/
theorem double_lt {x : ℚ} (hx : 0 ≤ x) (h : x < 2 ^ 24) : double x < x + 1 / 10 ^ 9 := by
  rcases hx.eq_or_lt with rfl | hpos
  · rw [double, Rounding.round_zero]
    norm_num
  · have hulp : Rounding.ulp 53 x ≤ 2 ^ ((24 : ℤ) - (53 : ℕ)) :=
      Rounding.ulp_le hpos.ne' (by rw [abs_of_pos hpos]; exact_mod_cast h)
    have hoff := (abs_le.mp (Rounding.abs_round_sub_le 53 x)).2
    rw [double]
    norm_num at hulp ⊢
    linarith

/-- A time that is not over is at least a nanosecond short of the timeout, too far
for the rounding to make it up. -/
theorem le_of_timedOut {c : Call} (hpos : 0 < c.userTimeOut) (hle : c.userTimeOut ≤ 9007199)
    (h : c.timedOut = true) : c.userTimeOut * 10 ^ 9 ≤ c.t2 - c.t1 := by
  have htimeout : double c.userTimeOut = c.userTimeOut := double_intCast (by rw [abs_lt]; omega)
  rw [Call.timedOut, decide_eq_true_iff, htimeout, Call.timeoutInSeconds] at h
  by_contra hlt
  have hone : c.t2 - c.t1 ≤ c.userTimeOut * 10 ^ 9 - 1 := by omega
  rcases lt_or_ge (c.t2 - c.t1) 0 with hneg | hnonneg
  · -- the clock was put back
    have hcount : double ((c.t2 - c.t1 : ℤ) : ℚ) ≤ 0 :=
      Rounding.round_nonpos (by exact_mod_cast hneg.le)
    have hseconds := Rounding.round_nonpos (p := 53)
      (div_nonpos_of_nonpos_of_nonneg hcount (by norm_num : (0 : ℚ) ≤ 10 ^ 9))
    have hzero : ((c.userTimeOut : ℤ) : ℚ) ≤ 0 := h.trans hseconds
    have hint : c.userTimeOut ≤ 0 := by exact_mod_cast hzero
    omega
  · have hcount : double ((c.t2 - c.t1 : ℤ) : ℚ) = ((c.t2 - c.t1 : ℤ) : ℚ) :=
      double_intCast (by rw [abs_lt]; omega)
    rw [hcount] at h
    have hx : (0 : ℚ) ≤ ((c.t2 - c.t1 : ℤ) : ℚ) / 10 ^ 9 :=
      div_nonneg (by exact_mod_cast hnonneg) (by norm_num)
    have hbelow : ((c.t2 - c.t1 : ℤ) : ℚ) / 10 ^ 9 ≤ c.userTimeOut - 1 / 10 ^ 9 := by
      have hcast : ((c.t2 - c.t1 : ℤ) : ℚ) ≤ c.userTimeOut * 10 ^ 9 - 1 := by exact_mod_cast hone
      rw [div_le_iff₀ (by norm_num), sub_mul]
      linarith
    have hmax : ((c.userTimeOut : ℤ) : ℚ) ≤ 9007199 := by exact_mod_cast hle
    have hnear := double_lt hx (by linarith)
    linarith

/-- A time that is over is not rounded below the timeout, which is a `double`. -/
theorem timedOut_of_le {c : Call} (hpos : 0 < c.userTimeOut) (hle : c.userTimeOut ≤ 9007199)
    (h : c.userTimeOut * 10 ^ 9 ≤ c.t2 - c.t1) : c.timedOut = true := by
  rw [Call.timedOut, decide_eq_true_iff, Call.timeoutInSeconds]
  have hnanos : double ((c.userTimeOut * 10 ^ 9 : ℤ) : ℚ) = ((c.userTimeOut * 10 ^ 9 : ℤ) : ℚ) :=
    double_intCast (by rw [abs_lt]; omega)
  have hcount : (c.userTimeOut : ℚ) * 10 ^ 9 ≤ double ((c.t2 - c.t1 : ℤ) : ℚ) := by
    have hmono := double_mono (y := ((c.t2 - c.t1 : ℤ) : ℚ))
      (Int.cast_nonneg (by omega : (0 : ℤ) ≤ c.userTimeOut * 10 ^ 9)) (Int.cast_le.mpr h)
    rw [hnanos] at hmono
    exact_mod_cast hmono
  exact double_mono (by exact_mod_cast hpos.le) ((le_div_iff₀ (by norm_num)).mpr hcount)

/-- For timeouts of up to 104 days the time is over when it is over. -/
theorem timedOut_iff {c : Call} (hpos : 0 < c.userTimeOut) (hle : c.userTimeOut ≤ 9007199) :
    c.timedOut = true ↔ c.userTimeOut * 10 ^ 9 ≤ c.t2 - c.t1 :=
  ⟨le_of_timedOut hpos hle, timedOut_of_le hpos hle⟩

/-- **Giving up.** While no response to it is in the queue, a call comes back
with a message that reports the timeout, the queue being left to the others,
exactly when the timeout is over at the second reading of the clock, before the
loop begins: in numbers that are rounded to a `double`, and for timeouts of up to
104 days in nanoseconds. -/
theorem gives_up_iff {π : Path (system X T)} {t : T} {clock : Nat → Int} {msg : PicoMessage}
    {userTimeOut : Int} (hstart : (π.state 0).callers t = .testing (callOn clock msg userTimeOut))
    (hsched : Scheduled π t (callOn clock msg userTimeOut))
    (hunanswered : Unanswered π t (callOn clock msg userTimeOut)) :
    (GivesUp π t (callOn clock msg userTimeOut) ↔
        double userTimeOut ≤ double (double ((clock 1 - clock 0 : ℤ) : ℚ) / 10 ^ 9)) ∧
      (0 < userTimeOut → userTimeOut ≤ 9007199 →
        (GivesUp π t (callOn clock msg userTimeOut) ↔
          userTimeOut * 10 ^ 9 ≤ clock 1 - clock 0)) := by
  have hgives : GivesUp π t (callOn clock msg userTimeOut) ↔
      (callOn clock msg userTimeOut).timedOut = true :=
    ⟨timedOut_of_givesUp, givesUp_of_timedOut hstart hsched hunanswered⟩
  exact ⟨hgives.trans decide_eq_true_iff, fun hpos hle => hgives.trans (timedOut_iff hpos hle)⟩

theorem gives_up_iff_ticking :
    let X : Externals := { parse := fun _ => none, stdHash := fun _ => 0 }
    let c := callOn ticking sampleRequest 10
    let π : Path (system X Unit) := pollingPath (q := [unclaimed]) (c := c) X rfl
      (by decide) ten_seconds_ahead
    (GivesUp π () c ↔
        double 10 ≤ double (double ((ticking 1 - ticking 0 : ℤ) : ℚ) / 10 ^ 9)) ∧
      (GivesUp π () c ↔ 10 * 10 ^ 9 ≤ ticking 1 - ticking 0) := by
  intro X c π
  have hiff := gives_up_iff (π := π) rfl (scheduled_repeating _)
    (unanswered_pollingPath _ _ _ _ (by decide))
  exact ⟨hiff.1, hiff.2 (by decide) (by decide)⟩

/-- The clock passes the timeout at its tenth reading, the call goes on. -/
theorem never_gives_up :
    let X : Externals := { parse := fun _ => none, stdHash := fun _ => 0 }
    let c := callOn ticking sampleRequest 10
    let π : Path (system X Unit) := pollingPath (q := [unclaimed]) (c := c) X rfl
      (by decide) ten_seconds_ahead
    (∀ i, ticking i ≤ ticking (i + 1)) ∧ 10 * 10 ^ 9 ≤ ticking 10 - ticking 0 ∧
      Scheduled π () c ∧ Unanswered π () c ∧ ¬ GivesUp π () c := by
  intro X c π
  have hahead := ten_seconds_ahead
  refine ⟨fun i => ?_, by decide, scheduled_repeating _,
    unanswered_pollingPath _ _ _ _ (by decide), fun h => ?_⟩
  · unfold ticking
    push_cast
    omega
  · rw [timedOut_of_givesUp h] at hahead
    cases hahead

end PicoDB.Polling
