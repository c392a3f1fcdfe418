import Mathlib.Logic.Function.Basic
import PicoDB.Lib.Linearization
import PicoDB.Lib.Lts
import PicoDB.Vector

/-!
# PicoDB.VectorCalls — calls of a `ConcurrentVector` from many threads

`push_back`, `pop` and `peek` try to take the lock of the vector, `push_back` and
`pop` over and over, and look at the vector in several steps when they have it.
Any number of threads make calls, in any interleaving. `linearizable` says that
this comes to one call after the other, each of them the single step that the
models of the queues take it for, and that `back()` and `pop_back()` are never
called on an empty vector; a `peek` that finds the lock taken may answer as if
the vector were empty. `remove` takes no lock and is left out.
-/

namespace PicoDB.ConcurrentVector

open Linearization Lts

/-! ## State -/

/-- The calls that take the lock. -/
inductive Op (α : Type) where
  | push_back (msg : α)
  | pop
  | peek
deriving DecidableEq, Repr

/-- Where a thread is. -/
inductive Pc (α : Type) where
  | outside
  /-- at `scoped_lock lock_(mutex_, try_to_lock)` -/
  | locking (op : Op α)
  /-- has the lock: at `push_back`, or at `size()>0` -/
  | locked (op : Op α)
  /-- at `msg = underlying_list.back()` -/
  | copying (op : Op α)
  /-- in `pop`, at `underlying_list.pop_back()` -/
  | shrinking (msg : α)
  /-- at the end of the block, where the lock is given back -/
  | unlocking (msg : Option α)
  | returning (msg : Option α)
deriving DecidableEq, Repr

/-- The thread has the lock. -/
def Pc.holds {α : Type} : Pc α → Bool
  | .locked _ => true
  | .copying _ => true
  | .shrinking _ => true
  | .unlocking _ => true
  | _ => false

/-- A vector of `α`, and the threads `T`. -/
structure State (α T : Type) where
  underlying_list : List α := []
  /-- who has `mutex_` -/
  mutex_ : Option T := none
  threads : T → Pc α := fun _ => .outside
  /-- `back()` or `pop_back()` was called on an empty vector -/
  undefined : Bool := false
  /-- history: how many calls were made -/
  calls : Nat := 0
  /-- history: the number of the last call of a thread -/
  number : T → Nat := fun _ => 0
  /-- history: what the callers see -/
  history : List (Event Nat (Op α) (Option α)) := []
  /-- history: the calls in the order in which they took effect -/
  effects : List (Entry Nat (Op α) (Option α)) := []

/-! ## Steps -/

section Steps

variable {α T : Type} [DecidableEq T]

/-- Thread `t` goes to `pc`. -/
def setThread (t : T) (pc : Pc α) (s : State α T) : State α T :=
  { s with threads := Function.update s.threads t pc }

/-- The call of thread `t` leaves the vector as `underlying_list`, and will answer
`msg`. -/
def takeEffect (t : T) (op : Op α) (msg : Option α) (underlying_list : List α) (s : State α T) :
    State α T :=
  { s with
    underlying_list := underlying_list
    effects := s.effects ++ [⟨s.number t, op, msg⟩] }

/-- A step of thread `t` in a call. -/
def threadStep (t : T) (s : State α T) : State α T :=
  match s.threads t with
  | .outside => s
  | .locking op =>
    if s.mutex_ = none then setThread t (.locked op) { s with mutex_ := some t }
    else
      match op with
      -- `return traits::getEmptyInstance()`
      | .peek => setThread t (.returning none) (takeEffect t .peek none s.underlying_list s)
      | _ => s
  | .locked (.push_back msg) =>
    setThread t (.unlocking none)
      (takeEffect t (.push_back msg) none (s.underlying_list ++ [msg]) s)
  | .locked op =>
    if s.underlying_list.length > 0 then setThread t (.copying op) s
    else setThread t (.unlocking none) (takeEffect t op none s.underlying_list s)
  | .copying op =>
    match s.underlying_list.getLast? with
    | none => { s with undefined := true }
    | some msg =>
      match op with
      | .pop => setThread t (.shrinking msg) s
      | _ => setThread t (.unlocking (some msg)) (takeEffect t op (some msg) s.underlying_list s)
  | .shrinking msg =>
    if s.underlying_list = [] then { s with undefined := true }
    else
      setThread t (.unlocking (some msg))
        (takeEffect t .pop (some msg) s.underlying_list.dropLast s)
  | .unlocking msg => setThread t (.returning msg) { s with mutex_ := none }
  | .returning msg =>
    setThread t .outside { s with history := s.history ++ [.ret (s.number t) msg] }

end Steps

/-- What can happen next. -/
inductive Label (α T : Type) where
  | call (t : T) (op : Op α)
  | thread (t : T)
deriving Repr

/-- The vector at work. -/
def vector (α T : Type) [DecidableEq T] : System (State α T) (Label α T) where
  Init s := s = {}
  guard
    | .call t _, s => s.undefined = false ∧ s.threads t = .outside
    | .thread t, s => s.undefined = false ∧ s.threads t ≠ .outside
  update
    | .call t op, s =>
      setThread t (.locking op)
        { s with
          calls := s.calls + 1
          number := Function.update s.number t s.calls
          history := s.history ++ [.call s.calls op] }
    | .thread t, s => threadStep t s

instance {α T : Type} [DecidableEq α] [DecidableEq T] (l : Label α T) (s : State α T) :
    Decidable ((vector α T).guard l s) :=
  match l with
  | .call t _ => inferInstanceAs (Decidable (s.undefined = false ∧ s.threads t = .outside))
  | .thread t => inferInstanceAs (Decidable (s.undefined = false ∧ s.threads t ≠ .outside))

/-! ## What a call is for -/

variable {α T : Type}

/-- What a call does to the vector as one step. A `peek` that overlaps another call
may find the lock taken. -/
def Effect (h : List (Event Nat (Op α) (Option α))) (e : Entry Nat (Op α) (Option α))
    (l l' : List α) : Prop :=
  match e.op with
  | .push_back msg => e.res = none ∧ l' = pushBack msg l
  | .pop => (e.res, l') = pop l
  | .peek => l' = l ∧ ∃ locked, e.res = peek locked l ∧
      (locked = false → ∃ j, j ≠ e.id ∧ Overlap h e.id j)

theorem Effect.mono {h k : List (Event Nat (Op α) (Option α))}
    (hmono : ∀ i j, Overlap h i j → Overlap k i j) {e : Entry Nat (Op α) (Option α)}
    {l l' : List α} (he : Effect h e l l') : Effect k e l l' := by
  obtain ⟨i, op, res⟩ := e
  cases op with
  | push_back msg => exact he
  | pop => exact he
  | peek =>
    obtain ⟨hl, locked, hres, hfree⟩ := he
    refine ⟨hl, locked, hres, fun hlocked => ?_⟩
    obtain ⟨j, hj, ho⟩ := hfree hlocked
    exact ⟨j, hj, hmono _ _ ho⟩

/-! ## Invariant -/

/-- The operation of a call that has not taken its effect. -/
def Pc.pending : Pc α → Option (Op α)
  | .locking op => some op
  | .locked op => some op
  | .copying op => some op
  | .shrinking _ => some .pop
  | _ => none

/-- The answer of a call that has. -/
def Pc.answer : Pc α → Option (Option α)
  | .unlocking msg => some msg
  | .returning msg => some msg
  | _ => none

/-- What a thread with the lock has seen of the vector is so. -/
def Looks (underlying_list : List α) : Pc α → Prop
  | .copying op => underlying_list ≠ [] ∧ ∀ msg, op ≠ .push_back msg
  | .shrinking msg => underlying_list.getLast? = some msg
  | _ => True

theorem looks_of_not_holds {pc : Pc α} (h : pc.holds = false) (l : List α) : Looks l pc := by
  cases pc with
  | copying op => cases h
  | shrinking msg => cases h
  | _ => trivial

theorem pending_of_answer {pc : Pc α} {msg : Option α} (h : pc.answer = some msg) :
    pc.pending = none := by
  cases pc <;> first | rfl | cases h

theorem looks_of_answer {pc : Pc α} {msg : Option α} (h : pc.answer = some msg) (l : List α) :
    Looks l pc := by
  cases pc <;> trivial

/-- A thread is where its call is in the history. -/
structure Good (s : State α T) (t : T) : Prop where
  pending : ∀ op, (s.threads t).pending = some op →
    .call (s.number t) op ∈ s.history ∧ ∀ e ∈ s.effects, e.id ≠ s.number t
  answer : ∀ msg, (s.threads t).answer = some msg → ∃ op, ⟨s.number t, op, msg⟩ ∈ s.effects
  open_ : s.threads t ≠ .outside → ∀ msg, .ret (s.number t) msg ∉ s.history
  holds : (s.threads t).holds = true ↔ s.mutex_ = some t
  looks : Looks s.underlying_list (s.threads t)

/-- `Good` for a thread that is known to be at `pc`. -/
theorem Good.of_pc {s : State α T} {t : T} {pc : Pc α} (hpc : s.threads t = pc)
    (pending : ∀ op, pc.pending = some op →
      .call (s.number t) op ∈ s.history ∧ ∀ e ∈ s.effects, e.id ≠ s.number t)
    (answer : ∀ msg, pc.answer = some msg → ∃ op, ⟨s.number t, op, msg⟩ ∈ s.effects)
    (open_ : pc ≠ .outside → ∀ msg, .ret (s.number t) msg ∉ s.history)
    (holds : pc.holds = true ↔ s.mutex_ = some t) (looks : Looks s.underlying_list pc) :
    Good s t := by
  subst hpc
  exact ⟨pending, answer, open_, holds, looks⟩

structure Inv (s : State α T) : Prop where
  linear : IsLinearization (Effect s.history) [] s.history s.effects s.underlying_list
  fresh : ∀ i ∈ s.history.filterMap Event.called, i < s.calls
  apart : ∀ t u, s.threads t ≠ .outside → s.threads u ≠ .outside → s.number t = s.number u → t = u
  good : ∀ t, Good s t
  defined : s.undefined = false

/-- What a step of thread `t` leaves to the others. -/
structure StepOf (t : T) (s s' : State α T) : Prop where
  threads : ∀ u, u ≠ t → s'.threads u = s.threads u
  number : ∀ u, u ≠ t → s'.number u = s.number u
  history : ∀ x ∈ s.history, x ∈ s'.history
  ret : ∀ i msg, .ret i msg ∈ s'.history →
    .ret i msg ∈ s.history ∨ i = s.number t ∧ s.threads t ≠ .outside
  effects : ∀ e ∈ s.effects, e ∈ s'.effects
  effect : ∀ e ∈ s'.effects, e ∈ s.effects ∨ e.id = s.number t ∧ s.threads t ≠ .outside
  mutex_ : ∀ u, u ≠ t → (s'.mutex_ = some u ↔ s.mutex_ = some u)
  underlying_list : s'.underlying_list = s.underlying_list ∨ (s.threads t).holds = true

/-- A call that is in progress has been made. -/
theorem Inv.call_mem {s : State α T} (h : Inv s) {t : T} (ht : s.threads t ≠ .outside) :
    s.number t ∈ s.history.filterMap Event.called := by
  cases hp : (s.threads t).pending with
  | some op => exact mem_called ((h.good t).pending op hp).1
  | none =>
    cases ha : (s.threads t).answer with
    | some msg =>
      obtain ⟨op, he⟩ := (h.good t).answer msg ha
      exact mem_called (h.linear.called _ he)
    | none => cases hpc : s.threads t <;> simp_all [Pc.pending, Pc.answer]

/-- Two calls in progress overlap. -/
theorem Inv.overlap {s : State α T} (h : Inv s) {t u : T} (ht : s.threads t ≠ .outside)
    (hu : s.threads u ≠ .outside) : Overlap s.history (s.number t) (s.number u) where
  left := h.call_mem ht
  right := h.call_mem hu
  notBefore hp := by
    obtain ⟨msg, hret⟩ := hp.ret_mem
    exact (h.good t).open_ ht msg hret
  notAfter hp := by
    obtain ⟨msg, hret⟩ := hp.ret_mem
    exact (h.good u).open_ hu msg hret

/-- The other threads are still where they were. -/
theorem Good.other {s s' : State α T} (h : Inv s) {t u : T} (hs : StepOf t s s') (hu : u ≠ t) :
    Good s' u := by
  obtain ⟨hpending, hanswer, hopen, hholds, hlooks⟩ := h.good u
  have hapart : s.threads t ≠ .outside → s.threads u ≠ .outside → s.number u ≠ s.number t :=
    fun ht hut heq => hu (h.apart u t hut ht heq)
  constructor
  · intro op hop
    rw [hs.threads u hu] at hop
    obtain ⟨hcall, hnew⟩ := hpending op hop
    rw [hs.number u hu]
    refine ⟨hs.history _ hcall, fun e he heq => ?_⟩
    rcases hs.effect e he with he | ⟨hid, ht⟩
    · exact hnew e he heq
    · refine hapart ht (fun hout => ?_) (heq.symm.trans hid)
      rw [hout] at hop
      cases hop
  · intro msg hmsg
    rw [hs.threads u hu] at hmsg
    rw [hs.number u hu]
    obtain ⟨op, he⟩ := hanswer msg hmsg
    exact ⟨op, hs.effects _ he⟩
  · intro hut msg hret
    rw [hs.threads u hu] at hut
    rw [hs.number u hu] at hret
    rcases hs.ret _ _ hret with hret | ⟨hid, ht⟩
    · exact hopen hut msg hret
    · exact hapart ht hut hid
  · rw [hs.threads u hu, hs.mutex_ u hu]
    exact hholds
  · rw [hs.threads u hu]
    rcases hs.underlying_list with heq | ht
    · rw [heq]
      exact hlooks
    · -- only one has the lock
      refine looks_of_not_holds (Bool.eq_false_iff.mpr fun hholdsu => ?_) _
      have hmutex := hholds.mp hholdsu
      rw [(h.good t).holds.mp ht] at hmutex
      exact hu (Option.some.inj hmutex).symm

/-- Who is in a call has a number of its own, if no new call is made. -/
theorem Inv.apart_of_step {s s' : State α T} (h : Inv s) {t : T} (hs : StepOf t s s')
    (ht : s.threads t ≠ .outside) (hnumber : s'.number t = s.number t) :
    ∀ u v, s'.threads u ≠ .outside → s'.threads v ≠ .outside → s'.number u = s'.number v →
      u = v := by
  have hin : ∀ u, s'.threads u ≠ .outside →
      s.threads u ≠ .outside ∧ s'.number u = s.number u := by
    intro u hu
    by_cases hut : u = t
    · rw [hut]
      exact ⟨ht, hnumber⟩
    · rw [← hs.threads u hut]
      exact ⟨hu, hs.number u hut⟩
  intro u v hu hv heq
  obtain ⟨hu, hunumber⟩ := hin u hu
  obtain ⟨hv, hvnumber⟩ := hin v hv
  exact h.apart u v hu hv (by rw [← hunumber, heq, hvnumber])

variable [DecidableEq T]

@[simp] theorem threads_setThread (t : T) (pc : Pc α) (s : State α T) (u : T) :
    (setThread t pc s).threads u = if u = t then pc else s.threads u :=
  Function.update_apply _ _ _ _

theorem threads_setThread_self (t : T) (pc : Pc α) (s : State α T) :
    (setThread t pc s).threads t = pc :=
  Function.update_self _ _ _

/-! ## The invariant is kept -/

theorem Inv.of_step {s s' : State α T} (h : Inv s) {t : T} (hs : StepOf t s s')
    (hlinear : IsLinearization (Effect s'.history) [] s'.history s'.effects s'.underlying_list)
    (hfresh : ∀ i ∈ s'.history.filterMap Event.called, i < s'.calls)
    (hapart : ∀ u v, s'.threads u ≠ .outside → s'.threads v ≠ .outside →
      s'.number u = s'.number v → u = v)
    (hgood : Good s' t) (hdefined : s'.undefined = false) : Inv s' := by
  refine ⟨hlinear, hfresh, hapart, fun u => ?_, hdefined⟩
  by_cases hu : u = t
  · exact hu ▸ hgood
  · exact .other h hs hu

/-- A thread goes on in its call, and takes the lock, keeps it or gives it back. -/
theorem Inv.goOn {s : State α T} (h : Inv s) {t : T} {pc : Pc α} {mutex_ : Option T}
    (ht : s.threads t ≠ .outside) (hpending : pc.pending = (s.threads t).pending)
    (hanswer : pc.answer = (s.threads t).answer)
    (hothers : ∀ u, u ≠ t → (mutex_ = some u ↔ s.mutex_ = some u))
    (hholds : pc.holds = true ↔ mutex_ = some t) (hlooks : Looks s.underlying_list pc) :
    Inv (setThread t pc { s with mutex_ := mutex_ }) := by
  have hs : StepOf t s (setThread t pc { s with mutex_ := mutex_ }) :=
    { threads := fun u hu => by rw [threads_setThread, if_neg hu]
      number := fun _ _ => rfl
      history := fun _ hx => hx
      ret := fun _ _ hret => Or.inl hret
      effects := fun _ he => he
      effect := fun _ he => Or.inl he
      mutex_ := hothers
      underlying_list := Or.inl rfl }
  have hgood := h.good t
  refine h.of_step hs h.linear h.fresh (h.apart_of_step hs ht rfl)
    (.of_pc (threads_setThread_self _ _ _) ?_ ?_ (fun _ => hgood.open_ ht) hholds hlooks) h.defined
  · rw [hpending]
    exact hgood.pending
  · rw [hanswer]
    exact hgood.answer

/-- A thread goes on in its call and changes nothing. -/
theorem Inv.walk {s : State α T} (h : Inv s) {t : T} {pc : Pc α} (ht : s.threads t ≠ .outside)
    (hpending : pc.pending = (s.threads t).pending) (hanswer : pc.answer = (s.threads t).answer)
    (hholds : pc.holds = (s.threads t).holds) (hlooks : Looks s.underlying_list pc) :
    Inv (setThread t pc s) :=
  h.goOn ht hpending hanswer (fun _ _ => Iff.rfl) (hholds ▸ (h.good t).holds) hlooks

/-- A thread gets the lock. -/
theorem Inv.lock {s : State α T} (h : Inv s) {t : T} {op : Op α}
    (hpc : s.threads t = .locking op) (hfree : s.mutex_ = none) :
    Inv (setThread t (.locked op) { s with mutex_ := some t }) := by
  refine h.goOn (by rw [hpc]; nofun) (by rw [hpc]; rfl) (by rw [hpc]; rfl) (fun u hu => ?_)
    ⟨fun _ => rfl, fun _ => rfl⟩ trivial
  rw [hfree]
  exact ⟨fun heq => absurd (Option.some.inj heq).symm hu, nofun⟩

/-- A thread gives the lock back. -/
theorem Inv.unlock {s : State α T} (h : Inv s) {t : T} {msg : Option α}
    (hpc : s.threads t = .unlocking msg) :
    Inv (setThread t (.returning msg) { s with mutex_ := none }) := by
  have hmutex : s.mutex_ = some t := (h.good t).holds.mp (by rw [hpc]; rfl)
  refine h.goOn (by rw [hpc]; nofun) (by rw [hpc]; rfl) (by rw [hpc]; rfl) (fun u hu => ?_)
    ⟨nofun, nofun⟩ trivial
  rw [hmutex]
  exact ⟨nofun, fun heq => absurd (Option.some.inj heq).symm hu⟩

/-- A pending call takes its effect. -/
theorem Inv.takeEffect {s : State α T} (h : Inv s) {t : T} {op : Op α} {msg : Option α}
    {l : List α} {pc : Pc α} (hpending : (s.threads t).pending = some op)
    (hanswer : pc.answer = some msg) (hholds : pc.holds = (s.threads t).holds)
    (heffect : Effect s.history ⟨s.number t, op, msg⟩ s.underlying_list l)
    (hl : l = s.underlying_list ∨ (s.threads t).holds = true) :
    Inv (setThread t pc (ConcurrentVector.takeEffect t op msg l s)) := by
  have ht : s.threads t ≠ .outside := fun hout => by
    rw [hout] at hpending
    cases hpending
  have hs : StepOf t s (setThread t pc (ConcurrentVector.takeEffect t op msg l s)) :=
    { threads := fun u hu => by
        rw [threads_setThread, if_neg hu]
        rfl
      number := fun _ _ => rfl
      history := fun _ hx => hx
      ret := fun _ _ hret => Or.inl hret
      effects := fun _ he => List.mem_append_left _ he
      effect := fun e he => by
        rcases List.mem_append.mp he with he | he
        · exact Or.inl he
        · rw [List.mem_singleton.mp he]
          exact Or.inr ⟨rfl, ht⟩
      mutex_ := fun _ _ => Iff.rfl
      underlying_list := hl }
  have hgood := h.good t
  obtain ⟨hcall, hnew⟩ := hgood.pending op hpending
  have hlinear := h.linear.point (e := ⟨s.number t, op, msg⟩) hcall hnew heffect
  refine h.of_step hs hlinear h.fresh (h.apart_of_step hs ht rfl)
    (.of_pc (threads_setThread_self _ _ _) ?_ ?_ (fun _ => hgood.open_ ht) ?_
      (looks_of_answer hanswer _)) h.defined
  · intro op' hop
    rw [pending_of_answer hanswer] at hop
    cases hop
  · rw [hanswer]
    intro msg' hmsg
    cases hmsg
    exact ⟨op, List.mem_append_right _ (List.mem_singleton_self _)⟩
  · rw [hholds]
    exact hgood.holds

/-- A call returns. -/
theorem Inv.ret {s : State α T} (h : Inv s) {t : T} {msg : Option α}
    (hpc : s.threads t = .returning msg) :
    Inv (setThread t .outside { s with history := s.history ++ [.ret (s.number t) msg] }) := by
  have ht : s.threads t ≠ .outside := by
    rw [hpc]
    nofun
  have hs : StepOf t s
      (setThread t .outside { s with history := s.history ++ [.ret (s.number t) msg] }) :=
    { threads := fun u hu => by rw [threads_setThread, if_neg hu]
      number := fun _ _ => rfl
      history := fun _ hx => List.mem_append_left _ hx
      ret := fun i msg' hret => by
        rcases List.mem_append.mp hret with hret | hret
        · exact Or.inl hret
        · cases List.mem_singleton.mp hret
          exact Or.inr ⟨rfl, ht⟩
      effects := fun _ he => he
      effect := fun _ he => Or.inl he
      mutex_ := fun _ _ => Iff.rfl
      underlying_list := Or.inl rfl }
  have hgood := h.good t
  obtain ⟨op, he⟩ := hgood.answer msg (by rw [hpc]; rfl)
  have hlinear := (h.linear.ret he).mono fun _ _ _ =>
    Effect.mono (k := s.history ++ [.ret (s.number t) msg]) fun _ _ => Overlap.ret
  refine h.of_step hs hlinear ?_ (h.apart_of_step hs ht rfl) ?_ h.defined
  · have hcalled : (s.history ++ [Event.ret (s.number t) msg]).filterMap Event.called =
        s.history.filterMap Event.called := by
      rw [List.filterMap_append]
      exact List.append_nil _
    intro i hi
    exact h.fresh i (hcalled ▸ hi)
  · have hfree : s.mutex_ ≠ some t := fun hmutex => by
      have hholds := hgood.holds.mpr hmutex
      rw [hpc] at hholds
      cases hholds
    exact .of_pc (threads_setThread_self _ _ _) nofun nofun (fun hout => absurd rfl hout)
      ⟨nofun, fun heq => absurd heq hfree⟩ trivial

/-- A new call. -/
theorem Inv.call {s : State α T} (h : Inv s) {t : T} (op : Op α) (ht : s.threads t = .outside) :
    Inv ((vector α T).update (.call t op) s) := by
  have hnew : s.calls ∉ s.history.filterMap Event.called := fun hmem => by
    have hlt := h.fresh _ hmem
    omega
  have hnumber : ∀ u, u ≠ t → ((vector α T).update (.call t op) s).number u = s.number u :=
    fun u hu => Function.update_of_ne hu _ _
  have hown : ((vector α T).update (.call t op) s).number t = s.calls :=
    Function.update_self _ _ _
  have hthread : ((vector α T).update (.call t op) s).threads t = .locking op :=
    Function.update_self _ _ _
  have hs : StepOf t s ((vector α T).update (.call t op) s) :=
    { threads := fun u hu => Function.update_of_ne hu _ _
      number := hnumber
      history := fun _ hx => List.mem_append_left _ hx
      ret := fun i msg hret => by
        rcases List.mem_append.mp hret with hret | hret
        · exact Or.inl hret
        · cases List.mem_singleton.mp hret
      effects := fun _ he => he
      effect := fun _ he => Or.inl he
      mutex_ := fun _ _ => Iff.rfl
      underlying_list := Or.inl rfl }
  have hlinear := (h.linear.call op hnew).mono fun _ _ _ =>
    Effect.mono (k := s.history ++ [.call s.calls op]) fun _ _ ho => ho.call hnew
  have hearlier : ∀ u, s.threads u ≠ .outside → s.number u ≠ s.calls := fun u hu heq =>
    hnew (heq ▸ h.call_mem hu)
  refine h.of_step hs hlinear ?_ ?_ ?_ h.defined
  · intro i hi
    have hcalled : (s.history ++ [Event.call s.calls op]).filterMap Event.called =
        s.history.filterMap Event.called ++ [s.calls] := List.filterMap_append
    rcases List.mem_append.mp (hcalled ▸ hi) with hi | hi
    · exact (h.fresh i hi).trans (Nat.lt_succ_self _)
    · rw [List.mem_singleton.mp hi]
      exact Nat.lt_succ_self _
  · -- the number of the new call is not taken
    intro u v hu hv heq
    by_cases hut : u = t
    · by_cases hvt : v = t
      · rw [hut, hvt]
      · rw [hs.threads v hvt] at hv
        rw [hut, hown, hnumber v hvt] at heq
        exact absurd heq.symm (hearlier v hv)
    · rw [hs.threads u hut] at hu
      by_cases hvt : v = t
      · rw [hvt, hown, hnumber u hut] at heq
        exact absurd heq (hearlier u hu)
      · rw [hs.threads v hvt] at hv
        rw [hnumber u hut, hnumber v hvt] at heq
        exact h.apart u v hu hv heq
  · refine .of_pc hthread ?_ nofun ?_ ⟨nofun, fun hmutex => ?_⟩ trivial
    · rw [hown]
      intro op' hop
      cases hop
      exact ⟨List.mem_append_right _ (List.mem_singleton_self _), fun e he heq =>
        hnew (heq ▸ mem_called (h.linear.called e he))⟩
    · intro _ msg hret
      rw [hown] at hret
      rcases List.mem_append.mp hret with hret | hret
      · obtain ⟨op', he⟩ := h.linear.returned _ _ hret
        exact hnew (mem_called (h.linear.called _ he))
      · cases List.mem_singleton.mp hret
    · have hholds := (h.good t).holds.mpr hmutex
      rw [ht] at hholds
      cases hholds

/-- A thread takes a step in its call. -/
theorem threadStep_inv {s : State α T} (h : Inv s) (t : T) : Inv (threadStep t s) := by
  have hgood := h.good t
  unfold threadStep
  split
  · exact h
  · rename_i op hpc
    split
    · rename_i hfree
      exact h.lock hpc hfree
    · rename_i hfree
      split
      · -- somebody else has the lock
        obtain ⟨u, hmutex⟩ := Option.ne_none_iff_exists'.mp hfree
        have hholds := (h.good u).holds.mpr hmutex
        have hu : s.threads u ≠ .outside := fun hout => by
          rw [hout] at hholds
          cases hholds
        have htu : u ≠ t := fun heq => by
          rw [heq, hpc] at hholds
          cases hholds
        have ht : s.threads t ≠ .outside := by
          rw [hpc]
          nofun
        refine h.takeEffect (by rw [hpc]; rfl) rfl (by rw [hpc]; rfl)
          ⟨rfl, false, rfl, fun _ => ⟨s.number u, fun heq => htu ?_, h.overlap ht hu⟩⟩ (Or.inl rfl)
        exact h.apart u t hu ht heq
      · exact h
  · rename_i msg hpc
    exact h.takeEffect (by rw [hpc]; rfl) rfl (by rw [hpc]; rfl) ⟨rfl, rfl⟩
      (Or.inr (by rw [hpc]; rfl))
  · rename_i op hop hpc
    have ht : s.threads t ≠ .outside := by
      rw [hpc]
      nofun
    split
    · rename_i hpos
      exact h.walk ht (by rw [hpc]; rfl) (by rw [hpc]; rfl) (by rw [hpc]; rfl)
        ⟨List.ne_nil_of_length_pos hpos, hop⟩
    · rename_i hpos
      have hnil : s.underlying_list = [] :=
        List.length_eq_zero_iff.mp (Nat.eq_zero_of_not_pos hpos)
      refine h.takeEffect (by rw [hpc]; rfl) rfl (by rw [hpc]; rfl) ?_ (Or.inl rfl)
      rw [hnil]
      cases op with
      | push_back msg => exact absurd rfl (hop msg)
      | pop => rfl
      | peek => exact ⟨rfl, true, rfl, fun hfalse => by cases hfalse⟩
  · rename_i op hpc
    have ht : s.threads t ≠ .outside := by
      rw [hpc]
      nofun
    have hlooks := hgood.looks
    rw [hpc] at hlooks
    split
    · rename_i hnone
      exact absurd (List.getLast?_eq_none_iff.mp hnone) hlooks.1
    · rename_i msg hlast
      split
      · exact h.walk ht (by rw [hpc]; rfl) (by rw [hpc]; rfl) (by rw [hpc]; rfl) hlast
      · rename_i hnot
        refine h.takeEffect (by rw [hpc]; rfl) rfl (by rw [hpc]; rfl) ?_ (Or.inl rfl)
        cases op with
        | push_back msg => exact absurd rfl (hlooks.2 msg)
        | pop => exact absurd rfl hnot
        | peek => exact ⟨rfl, true, hlast.symm, fun hfalse => by cases hfalse⟩
  · rename_i msg hpc
    have hlooks := hgood.looks
    rw [hpc] at hlooks
    have hlast : s.underlying_list.getLast? = some msg := hlooks
    split
    · rename_i hnil
      rw [hnil] at hlast
      cases hlast
    · exact h.takeEffect (by rw [hpc]; rfl) rfl (by rw [hpc]; rfl)
        (Prod.ext hlast.symm rfl) (Or.inr (by rw [hpc]; rfl))
  · rename_i msg hpc
    exact h.unlock hpc
  · rename_i msg hpc
    exact h.ret hpc

omit [DecidableEq T] in
theorem init_inv : Inv ({} : State α T) where
  linear := .nil _ _
  fresh i hi := absurd hi List.not_mem_nil
  apart t u ht := absurd rfl ht
  good t :=
    { pending := fun op hop => by cases hop
      answer := fun msg hmsg => by cases hmsg
      open_ := fun ht => absurd rfl ht
      holds := ⟨nofun, nofun⟩
      looks := trivial }
  defined := rfl

theorem inv_of_reachable {s : State α T} (h : Reachable (vector α T) s) : Inv s := by
  refine reachable_invariant Inv (fun s hs => hs ▸ init_inv) (fun l s hg hi => ?_) h
  cases l with
  | call t op => exact hi.call op hg.2
  | thread t => exact threadStep_inv hi t

/-- **Linearizability.** In every reachable state the calls that were made, as far as
they have come, stand in a sequential order in which each is one step on the vector,
from the empty vector to what it holds now; and nothing undefined was done. -/
theorem linearizable {s : State α T} (h : Reachable (vector α T) s) :
    s.undefined = false ∧
      ∃ l, IsLinearization (Effect s.history) [] s.history l s.underlying_list := by
  have hinv := inv_of_reachable h
  exact ⟨hinv.defined, s.effects, hinv.linear⟩

/-- One thread pushes; the other peeks while the lock is taken, and pops after that. -/
def peeksTooEarly : List (Label Nat Bool) :=
  [.call false (.push_back 7), .thread false, .call true .peek, .thread true, .thread true,
    .thread false, .thread false, .thread false, .call true .pop, .thread true, .thread true,
    .thread true, .thread true, .thread true, .thread true]

theorem peeksTooEarly_reachable :
    Reachable (vector Nat Bool) (after (vector Nat Bool) peeksTooEarly {}) :=
  ⟨_, run_of_fires rfl (by decide +kernel)⟩

theorem linearizable_peeksTooEarly :
    let s := after (vector Nat Bool) peeksTooEarly {}
    s.history = [.call 0 (.push_back 7), .call 1 .peek, .ret 1 none, .ret 0 none, .call 2 .pop,
      .ret 2 (some 7)] ∧
      ∃ l, IsLinearization (Effect s.history) [] s.history l s.underlying_list := by
  exact ⟨by decide +kernel, (linearizable peeksTooEarly_reachable).2⟩

end PicoDB.ConcurrentVector
