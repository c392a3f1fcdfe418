import PicoDB.LockStep

/-!
# PicoDB.Responses — every request in one place, every response to its caller

A caller looks at the back of `responseQueue_`, compares, and removes, in three
steps; in between other callers remove and the driver pushes. What makes this
safe is found in three layers:

* the pointers in `responseQueue_` are distinct (`Pointers`), so `remove` takes
  out what was peeked, wherever it is by then;
* a response that was peeked is still there unless another call returned it,
  which no call for another request does (`Calls`);
* no step makes or drops a body (`Conserved`), given the lock-step protocol.
-/

namespace PicoDB.Responses

open ConcurrentVector Lts LockStep

variable {T : Type} {X : Externals}

/-! ## The pointers in the response queue -/

/-- The message was parsed from the text it carries. -/
def Parsed (X : Externals) (m : PicoMessage) : Prop :=
  receive X m.json_form_of_message = .ok (some m)

/-- Pointers to responses are distinct, and what they point to was parsed. -/
structure Pointers (X : Externals) (s : State T) : Prop where
  nodup : (s.responseQueue.map SharedPtr.addr).Nodup
  old : ∀ p ∈ s.responseQueue, p.addr < s.fresh
  parsed : ∀ p ∈ s.responseQueue, Parsed X p.val
  queueing : ∀ p, s.driver = .queueing p →
    p.addr < s.fresh ∧ p.addr ∉ s.responseQueue.map SharedPtr.addr ∧ Parsed X p.val

/-- What a step of the driver does to the response queue. -/
theorem driverStep_responses (X : Externals) (M : Memory) (s : State T) :
    (∃ p, s.driver = .queueing p ∧ (driverStep X M s).driver = .testing ∧
        (driverStep X M s).responseQueue = s.responseQueue ++ [p] ∧
        (driverStep X M s).fresh = s.fresh) ∨
      ((driverStep X M s).responseQueue = s.responseQueue ∧ s.fresh ≤ (driverStep X M s).fresh ∧
        ∀ p, (driverStep X M s).driver = .queueing p →
          p.addr = s.fresh ∧ (driverStep X M s).fresh = s.fresh + 1 ∧ Parsed X p.val) := by
  cases hd : s.driver with
  | queueing p =>
    -- `queueTheResponse`, the only push
    left
    exact ⟨p, rfl, by simp only [driverStep, hd], by simp only [driverStep, hd, pushBack],
      by simp only [driverStep, hd]⟩
  | testing =>
    right
    have hstep : driverStep X M s =
        { s with driver := if s.requestQueue = [] then .parked else .popping } := by
      simp only [driverStep, hd]
    rw [hstep]
    refine ⟨rfl, le_refl _, fun p hp => ?_⟩
    dsimp only at hp
    split at hp
    · cases hp
    · cases hp
  | parked =>
    right
    have hstep : driverStep X M s = { s with driver := .testing } := by
      simp only [driverStep, hd]
    rw [hstep]
    exact ⟨rfl, le_refl _, fun p hp => by cases hp⟩
  | popping =>
    right
    simp only [driverStep, hd]
    split
    · exact ⟨rfl, le_refl _, fun p hp => by cases hp⟩
    · exact ⟨rfl, le_refl _, fun p hp => by cases hp⟩
  | writing r =>
    right
    simp only [driverStep, hd]
    split
    · exact ⟨rfl, le_refl _, fun p hp => by cases hp⟩
    · exact ⟨rfl, le_refl _, fun p hp => by cases hp⟩
  | reading =>
    right
    simp only [driverStep, hd]
    split
    · exact ⟨rfl, le_refl _, fun p hp => by rw [hd] at hp; cases hp⟩
    · split
      · -- a response was parsed: `new` gives it an address of its own
        rename_i f rest _ msg hmsg
        refine ⟨rfl, Nat.le_succ _, fun p hp => ?_⟩
        cases hp
        refine ⟨rfl, rfl, ?_⟩
        rw [Parsed, receive_json hmsg, hmsg]
      · exact ⟨rfl, le_refl _, fun p hp => by cases hp⟩
  | halted =>
    right
    have hstep : driverStep X M s = s := by simp only [driverStep, hd]
    rw [hstep]
    exact ⟨rfl, le_refl _, fun p hp => by rw [hd] at hp; cases hp⟩

/-- What a step of a caller does to the response queue: nothing, or it returns
a response and removes it. -/
theorem callerStep_responses [DecidableEq T] (X : Externals) (t : T) (locked : Bool)
    (s : State T) :
    (∃ c p, s.callers t = .removing c p ∧
        (callerStep X t locked s).responseQueue =
          remove (fun q => q.addr == p.addr) s.responseQueue ∧
        (callerStep X t locked s).returned = s.returned ++ [(c, p)]) ∨
      ((callerStep X t locked s).responseQueue = s.responseQueue ∧
        (callerStep X t locked s).returned = s.returned) := by
  cases hpc : s.callers t with
  | removing c p =>
    left
    exact ⟨c, p, rfl, by simp only [callerStep, hpc, setCaller],
      by simp only [callerStep, hpc, setCaller]⟩
  | idle => right; simp only [callerStep, hpc, and_self]
  | testing c => right; simp only [callerStep, hpc, setCaller, and_self]
  | peeking c => right; simp only [callerStep, hpc, setCaller, and_self]
  | comparing c response =>
    right
    cases response with
    | none => simp only [callerStep, hpc, setCaller, and_self]
    | some p =>
      simp only [callerStep, hpc]
      split
      · exact ⟨rfl, rfl⟩
      · exact ⟨rfl, rfl⟩
  | timing c =>
    right
    simp only [callerStep, hpc]
    split
    · exact ⟨rfl, rfl⟩
    · exact ⟨rfl, rfl⟩

section

variable [DecidableEq T]

theorem init_pointers {s : State T} (h : (system X T).Init s) : Pointers X s := by
  cases h
  exact ⟨List.nodup_nil, by simp, by simp, fun p hp => by cases hp⟩

theorem step_pointers (l : Label T) {s : State T} (h : Pointers X s) :
    Pointers X ((system X T).update l s) := by
  cases l with
  | issue t a draw t1 t2 userTimeOut =>
    refine ⟨h.nodup, fun p hp => lt_trans (h.old p hp) (Nat.lt_succ_self _), h.parsed, ?_⟩
    intro p hp
    rcases h.queueing p hp with ⟨hlt, hnot, hparsed⟩
    exact ⟨lt_trans hlt (Nat.lt_succ_self _), hnot, hparsed⟩
  | caller t locked =>
    have hsame := callerStep_sameLoops X t locked s
    have hsub : List.Sublist (callerStep X t locked s).responseQueue s.responseQueue := by
      rcases callerStep_responses X t locked s with ⟨c, p, -, hq, -⟩ | ⟨hq, -⟩
      · rw [hq, remove_eq_filter_of_nodup SharedPtr.addr p.addr h.nodup]
        exact List.filter_sublist
      · rw [hq]
    refine ⟨h.nodup.sublist (hsub.map _), fun p hp => ?_, fun p hp => h.parsed p (hsub.subset hp),
      fun p hp => ?_⟩
    · rw [update_caller, hsame.fresh]
      exact h.old p (hsub.subset hp)
    · rcases h.queueing p (hsame.driver ▸ hp) with ⟨hlt, hnot, hparsed⟩
      refine ⟨?_, fun hin => hnot ((hsub.map _).subset hin), hparsed⟩
      rwa [update_caller, hsame.fresh]
  | driver M =>
    rw [update_driver]
    rcases driverStep_responses X M s with ⟨p, hp, hd, hq, hfresh⟩ | ⟨hq, hle, hnew⟩
    · -- the pointer pushed is not in the queue yet
      rcases h.queueing p hp with ⟨hlt, hnot, hparsed⟩
      refine ⟨?_, ?_, ?_, fun p' hp' => by rw [hd] at hp'; cases hp'⟩
      · rw [hq, List.map_append, List.nodup_append]
        refine ⟨h.nodup, List.nodup_singleton _, ?_⟩
        intro a ha b hb
        rw [List.map_cons, List.map_nil, List.mem_singleton] at hb
        rintro rfl
        exact hnot (hb ▸ ha)
      · rw [hq, hfresh]
        exact List.forall_mem_append.mpr ⟨h.old, List.forall_mem_singleton.mpr hlt⟩
      · rw [hq]
        exact List.forall_mem_append.mpr ⟨h.parsed, List.forall_mem_singleton.mpr hparsed⟩
    · -- the queue stays; a new pointer is newer than all in it
      refine ⟨by rw [hq]; exact h.nodup, ?_, by rw [hq]; exact h.parsed, ?_⟩
      · intro p hp
        rw [hq] at hp
        exact lt_of_lt_of_le (h.old p hp) hle
      · intro p hp
        rcases hnew p hp with ⟨haddr, hfresh, hparsed⟩
        refine ⟨by omega, ?_, hparsed⟩
        rw [hq, List.mem_map]
        rintro ⟨p', hp', heq⟩
        have hlt := h.old p' hp'
        omega
  | session dangling M =>
    have hframe := sessionStep_frame X dangling M s
    rw [update_session]
    refine ⟨?_, ?_, ?_, ?_⟩
    · rw [hframe.2.1]
      exact h.nodup
    · rw [hframe.2.1, hframe.2.2.2.1]
      exact h.old
    · rw [hframe.2.1]
      exact h.parsed
    · rw [hframe.2.1, hframe.2.2.1, hframe.2.2.2.1]
      exact h.queueing

theorem pointers {s : State T} (h : Reachable (system X T) s) : Pointers X s :=
  reachable_invariant (Pointers X) (fun _ => init_pointers) (fun l _ _ hi => step_pointers l hi) h

end

/-! ## The calls -/

/-- The response was returned by some call. -/
def WasReturned (s : State T) (p : SharedPtr PicoMessage) : Prop := ∃ e ∈ s.returned, e.2 = p

/-- The id of the request of a call that has ended, one way or the other. -/
def Ended (s : State T) (id : Bytes) : Prop :=
  (∃ e ∈ s.returned, e.1.msg.messageId = id) ∨ ∃ e ∈ s.gaveUp, e.1.msg.messageId = id

/-- What is known of a thread in a call `c`. -/
structure Caller (s : State T) (pc : CallerPc) (c : Call) : Prop where
  issued : c.msg ∈ s.issued
  going : ¬ Ended s c.msg.messageId
  seen : ∀ p, pc = .comparing c (some p) ∨ pc = .removing c p →
    p ∈ s.responseQueue ∨ WasReturned s p
  matched : ∀ p, pc = .removing c p → p.val.messageId = c.msg.messageId

/-- What is known of all calls, past and present. -/
structure Calls (s : State T) : Prop where
  caller : ∀ t c, (s.callers t).call = some c → Caller s (s.callers t) c
  apart : ∀ t t' c c', (s.callers t).call = some c → (s.callers t').call = some c' →
    c.msg.messageId = c'.msg.messageId → t = t'
  returned : ∀ e ∈ s.returned, e.1.msg ∈ s.issued ∧ e.2.val.messageId = e.1.msg.messageId
  once : (s.returned.map fun e => e.1.msg.messageId).Nodup
  gaveUp : ∀ e ∈ s.gaveUp, e.1.msg ∈ s.issued ∧
    ∀ r ∈ s.returned, r.1.msg.messageId ≠ e.1.msg.messageId

/-- What a response queue that only grows does to the calls: nothing. -/
theorem calls_of_sameCalls {s s' : State T} (h : Calls s) (hsame : SameCalls s s')
    (hgrows : ∀ p ∈ s.responseQueue, p ∈ s'.responseQueue) : Calls s' := by
  have hended : ∀ id, Ended s' id → Ended s id := by
    intro id hid
    rwa [Ended, hsame.returned, hsame.gaveUp] at hid
  constructor
  · intro t c hc
    rw [hsame.callers] at hc ⊢
    have hcaller := h.caller t c hc
    refine ⟨by rw [hsame.issued]; exact hcaller.issued, fun he => hcaller.going (hended _ he),
      fun p hp => ?_, hcaller.matched⟩
    rcases hcaller.seen p hp with hin | hret
    · exact Or.inl (hgrows p hin)
    · exact Or.inr (by rwa [WasReturned, hsame.returned])
  · rw [hsame.callers]
    exact h.apart
  · rw [hsame.returned, hsame.issued]
    exact h.returned
  · rw [hsame.returned]
    exact h.once
  · rw [hsame.gaveUp, hsame.issued, hsame.returned]
    exact h.gaveUp

/-- What a call is about to remove is in the response queue: only a call for
the same request could have returned it. -/
theorem mem_of_removing {s : State T} (h : Calls s) {t : T} {c : Call}
    {p : SharedPtr PicoMessage} (hpc : s.callers t = .removing c p) : p ∈ s.responseQueue := by
  have hcaller := h.caller t c (by rw [hpc]; rfl)
  rcases hcaller.seen p (Or.inr hpc) with hin | ⟨e, he, rfl⟩
  · exact hin
  · refine absurd (Or.inl ⟨e, he, ?_⟩) hcaller.going
    rw [← (h.returned e he).2, hcaller.matched e.2 hpc]

section Calls

variable [DecidableEq T]

theorem init_calls {s : State T} (h : (system X T).Init s) : Calls s := by
  cases h
  constructor
  · intro t c hc
    cases hc
  · intro t t' c c' hc
    cases hc
  · intro e he
    cases he
  · exact List.nodup_nil
  · intro e he
    cases he

theorem callers_setCaller (t : T) (pc : CallerPc) (s : State T) (t' : T) :
    (setCaller t pc s).callers t' = if t' = t then pc else s.callers t' := by
  simp only [setCaller, Function.update_apply]

/-- A thread that goes on within its call. -/
theorem calls_setCaller {s : State T} (h : Calls s) {t : T} {c : Call}
    (hc : (s.callers t).call = some c) {pc : CallerPc} (hcall : pc.call = some c)
    (hseen : ∀ p, pc = .comparing c (some p) ∨ pc = .removing c p →
      p ∈ s.responseQueue ∨ WasReturned s p)
    (hmatched : ∀ p, pc = .removing c p → p.val.messageId = c.msg.messageId) :
    Calls (setCaller t pc s) := by
  have hsame : ∀ t', ((setCaller t pc s).callers t').call = (s.callers t').call := by
    intro t'
    rw [callers_setCaller]
    split
    · rename_i ht
      rw [ht, hc, hcall]
    · rfl
  constructor
  · intro t' c' hc'
    rw [hsame] at hc'
    have hcaller := h.caller t' c' hc'
    rw [callers_setCaller]
    split
    · rename_i ht
      subst ht
      rw [hc] at hc'
      cases hc'
      exact ⟨hcaller.issued, hcaller.going, hseen, hmatched⟩
    · exact ⟨hcaller.issued, hcaller.going, hcaller.seen, hcaller.matched⟩
  · intro t₁ t₂ c₁ c₂ h₁ h₂
    rw [hsame] at h₁ h₂
    exact h.apart t₁ t₂ c₁ c₂ h₁ h₂
  · exact h.returned
  · exact h.once
  · exact h.gaveUp

/-- A thread that starts a call with an id no request had before. -/
theorem calls_issue {s : State T} (h : Calls s) {t : T} {c : Call}
    (hnew : ∀ m ∈ s.issued, m.messageId ≠ c.msg.messageId) :
    Calls (setCaller t (.testing c) (queueRequestMessages c.msg s)) := by
  have hother : ∀ t' c', (s.callers t').call = some c' → c'.msg.messageId ≠ c.msg.messageId :=
    fun t' c' hc' => hnew _ (h.caller t' c' hc').issued
  constructor
  · intro t' c' hc'
    rw [callers_setCaller] at hc' ⊢
    split at hc'
    · -- the new call: no call with its id can have ended
      rename_i ht
      cases hc'
      rw [if_pos ht]
      refine ⟨List.mem_append_right _ (List.mem_singleton.mpr rfl), ?_, by simp, by simp⟩
      rintro (⟨e, he, heq⟩ | ⟨e, he, heq⟩)
      · exact hnew _ (h.returned e he).1 heq
      · exact hnew _ (h.gaveUp e he).1 heq
    · rename_i ht
      rw [if_neg ht]
      have hcaller := h.caller t' c' hc'
      exact ⟨List.mem_append_left _ hcaller.issued, hcaller.going, hcaller.seen, hcaller.matched⟩
  · intro t₁ t₂ c₁ c₂ h₁ h₂ heq
    rw [callers_setCaller] at h₁ h₂
    split at h₁
    · rename_i ht₁
      cases h₁
      split at h₂
      · rename_i ht₂
        rw [ht₁, ht₂]
      · exact absurd heq.symm (hother t₂ c₂ h₂)
    · split at h₂
      · cases h₂
        exact absurd heq (hother t₁ c₁ h₁)
      · exact h.apart t₁ t₂ c₁ c₂ h₁ h₂ heq
  · intro e he
    exact ⟨List.mem_append_left _ (h.returned e he).1, (h.returned e he).2⟩
  · exact h.once
  · intro e he
    exact ⟨List.mem_append_left _ (h.gaveUp e he).1, (h.gaveUp e he).2⟩

/-- A call that ends: with a response, which it takes out of the queue, or
without. `s'` is the state it leaves. -/
theorem calls_end {s s' : State T} (h : Calls s) {t : T} {c : Call}
    (hc : (s.callers t).call = some c)
    (hcallers : ∀ t', s'.callers t' = if t' = t then .idle else s.callers t')
    (hissued : s'.issued = s.issued)
    (hended : ∀ id, Ended s' id → Ended s id ∨ id = c.msg.messageId)
    (hqueue : ∀ p ∈ s.responseQueue, p ∈ s'.responseQueue ∨ WasReturned s' p)
    (hreturned : ∀ p, WasReturned s p → WasReturned s' p)
    (hrest : (∀ e ∈ s'.returned, e.1.msg ∈ s.issued ∧ e.2.val.messageId = e.1.msg.messageId) ∧
      (s'.returned.map fun e => e.1.msg.messageId).Nodup ∧
      ∀ e ∈ s'.gaveUp, e.1.msg ∈ s.issued ∧
        ∀ r ∈ s'.returned, r.1.msg.messageId ≠ e.1.msg.messageId) : Calls s' := by
  have hcall : ∀ t' c', (s'.callers t').call = some c' →
      t' ≠ t ∧ s'.callers t' = s.callers t' ∧ (s.callers t').call = some c' := by
    intro t' c' hc'
    rw [hcallers] at hc' ⊢
    split at hc'
    · cases hc'
    · rename_i ht
      exact ⟨ht, if_neg ht, hc'⟩
  constructor
  · intro t' c' hc'
    rcases hcall t' c' hc' with ⟨ht, hpc, hc'⟩
    have hcaller := h.caller t' c' hc'
    rw [hpc]
    refine ⟨hissued ▸ hcaller.issued, fun hend => ?_, fun p hp => ?_, hcaller.matched⟩
    · -- the call that ended is `t`'s, and `t'` has another id
      rcases hended _ hend with hend | heq
      · exact hcaller.going hend
      · exact ht (h.apart t' t c' c hc' hc heq)
    · rcases hcaller.seen p hp with hin | hret
      · exact hqueue p hin
      · exact Or.inr (hreturned p hret)
  · intro t₁ t₂ c₁ c₂ h₁ h₂
    exact h.apart t₁ t₂ c₁ c₂ (hcall t₁ c₁ h₁).2.2 (hcall t₂ c₂ h₂).2.2
  · rw [hissued]
    exact hrest.1
  · exact hrest.2.1
  · rw [hissued]
    exact hrest.2.2

/-- A call that returns a response, and takes it out of the queue wherever it
lies by now. -/
theorem calls_returns {s : State T} (hptr : Pointers X s) (h : Calls s) {t : T} {c : Call}
    {p : SharedPtr PicoMessage} (hpc : s.callers t = .removing c p) :
    Calls (setCaller t .idle
      { s with
        responseQueue := remove (fun q => q.addr == p.addr) s.responseQueue
        returned := s.returned ++ [(c, p)] }) := by
  have hc : (s.callers t).call = some c := by rw [hpc]; rfl
  have hcaller := h.caller t c hc
  have hgoing := hcaller.going
  refine calls_end h hc (callers_setCaller t _ _) rfl ?_ ?_ ?_ ⟨?_, ?_, ?_⟩
  · rintro id (⟨e, he, heq⟩ | hgave)
    · rcases List.mem_append.mp he with he | he
      · exact Or.inl (Or.inl ⟨e, he, heq⟩)
      · rw [List.mem_singleton] at he
        subst he
        exact Or.inr heq.symm
    · exact Or.inl (Or.inr hgave)
  · -- another caller may have peeked at this response: for it, it was returned
    intro q hq
    by_cases haddr : q.addr = p.addr
    · have heq : q = p := List.inj_on_of_nodup_map hptr.nodup hq (mem_of_removing h hpc) haddr
      exact Or.inr ⟨(c, p), List.mem_append_right _ (List.mem_singleton.mpr rfl), heq.symm⟩
    · left
      show q ∈ remove (fun q => q.addr == p.addr) s.responseQueue
      rw [remove_eq_filter_of_nodup SharedPtr.addr p.addr hptr.nodup, List.mem_filter]
      exact ⟨hq, by simpa using haddr⟩
  · rintro q ⟨e, he, heq⟩
    exact ⟨e, List.mem_append_left _ he, heq⟩
  · have hlast := And.intro hcaller.issued (hcaller.matched p hpc)
    exact List.forall_mem_append.mpr ⟨h.returned, List.forall_mem_singleton.mpr hlast⟩
  · -- the call was still going, so its id is new among those returned
    show ((s.returned ++ [(c, p)]).map fun e => e.1.msg.messageId).Nodup
    rw [List.map_append, List.nodup_append]
    refine ⟨h.once, List.nodup_singleton _, ?_⟩
    intro id hid id' hid' heq
    rw [List.mem_map] at hid
    rcases hid with ⟨e, he, rfl⟩
    rw [List.map_cons, List.map_nil, List.mem_singleton] at hid'
    exact hgoing (Or.inl ⟨e, he, heq.trans hid'⟩)
  · intro e he
    have hother : c.msg.messageId ≠ e.1.msg.messageId :=
      fun heq => hgoing (Or.inr ⟨e, he, heq.symm⟩)
    refine ⟨(h.gaveUp e he).1, ?_⟩
    exact List.forall_mem_append.mpr ⟨(h.gaveUp e he).2, List.forall_mem_singleton.mpr hother⟩

/-- A call that gives up: the queue stays as it is. -/
theorem calls_givesUp {s : State T} (h : Calls s) {t : T} {c : Call}
    (hpc : s.callers t = .timing c) (response : PicoMessage) :
    Calls (setCaller t .idle { s with gaveUp := s.gaveUp ++ [(c, response)] }) := by
  have hc : (s.callers t).call = some c := by rw [hpc]; rfl
  have hcaller := h.caller t c hc
  have hgoing := hcaller.going
  refine calls_end h hc (callers_setCaller t _ _) rfl ?_ (fun q hq => Or.inl hq)
    (fun q hq => hq) ⟨h.returned, h.once, ?_⟩
  · rintro id (hret | ⟨e, he, heq⟩)
    · exact Or.inl (Or.inl hret)
    · rcases List.mem_append.mp he with he | he
      · exact Or.inl (Or.inr ⟨e, he, heq⟩)
      · rw [List.mem_singleton] at he
        subst he
        exact Or.inr heq.symm
  · have hother : ∀ r ∈ s.returned, r.1.msg.messageId ≠ c.msg.messageId :=
      fun r hr heq => hgoing (Or.inl ⟨r, hr, heq⟩)
    have hlast := And.intro hcaller.issued hother
    exact List.forall_mem_append.mpr ⟨h.gaveUp, List.forall_mem_singleton.mpr hlast⟩

/-- Step lemma of the calls. -/
theorem callerStep_calls {s : State T} (hptr : Pointers X s) (h : Calls s) (t : T)
    (locked : Bool) : Calls (callerStep X t locked s) := by
  cases hpc : s.callers t with
  | idle => simpa only [callerStep, hpc] using h
  | testing c =>
    have hc : (s.callers t).call = some c := by rw [hpc]; rfl
    simp only [callerStep, hpc]
    split
    · exact calls_setCaller h hc rfl (by simp) (by simp)
    · exact calls_setCaller h hc rfl (by simp) (by simp)
  | peeking c =>
    have hc : (s.callers t).call = some c := by rw [hpc]; rfl
    simp only [callerStep, hpc]
    -- what is peeked is in the queue at that moment
    refine calls_setCaller h hc rfl ?_ (by simp)
    rintro p (hp | hp)
    · injection hp with _ hpeek
      exact Or.inl (mem_of_peek hpeek)
    · cases hp
  | comparing c response =>
    have hc : (s.callers t).call = some c := by rw [hpc]; rfl
    cases response with
    | none =>
      -- the lock was taken, or the queue was empty again
      simp only [callerStep, hpc]
      exact calls_setCaller h hc rfl (by simp) (by simp)
    | some p =>
      simp only [callerStep, hpc]
      split
      · rename_i hid
        refine calls_setCaller h hc rfl ?_ ?_
        · rintro p' (hp' | hp')
          · cases hp'
          · cases hp'
            exact (h.caller t c hc).seen p (Or.inl hpc)
        · rintro p' hp'
          cases hp'
          exact hid
      · exact calls_setCaller h hc rfl (by simp) (by simp)
  | removing c p =>
    simp only [callerStep, hpc]
    exact calls_returns hptr h hpc
  | timing c =>
    have hc : (s.callers t).call = some c := by rw [hpc]; rfl
    simp only [callerStep, hpc]
    split
    · exact calls_givesUp h hpc _
    · exact calls_setCaller h hc rfl (by simp) (by simp)

/-- The requests issued so far have pairwise distinct ids. -/
def Distinct (s : State T) : Prop := (s.issued.map PicoMessage.messageId).Nodup

theorem step_calls {s : State T} (l : Label T) (hptr : Pointers X s)
    (hids : Distinct ((system X T).update l s)) (h : Calls s) :
    Calls ((system X T).update l s) := by
  cases l with
  | issue t a draw t1 t2 userTimeOut =>
    refine calls_issue h (t := t) (c := ⟨a.build X draw, t1, t2, userTimeOut⟩) ?_
    intro m hm heq
    have hids : ((s.issued ++ [a.build X draw]).map PicoMessage.messageId).Nodup := hids
    rw [List.map_append, List.nodup_append] at hids
    exact hids.2.2 _ (List.mem_map_of_mem hm) _ (by simp) heq
  | caller t locked => exact callerStep_calls hptr h t locked
  | driver M =>
    refine calls_of_sameCalls h (driverStep_sameCalls X M s) ?_
    intro p hp
    rcases driverStep_responses X M s with ⟨p', -, -, hq, -⟩ | ⟨hq, -, -⟩
    · rw [update_driver, hq]
      exact List.mem_append_left _ hp
    · rwa [update_driver, hq]
  | session dangling M =>
    refine calls_of_sameCalls h (sessionStep_sameCalls X dangling M s) ?_
    intro p hp
    rwa [update_session, (sessionStep_frame X dangling M s).2.1]

theorem distinct_of_step (l : Label T) {s : State T} (h : Distinct ((system X T).update l s)) :
    Distinct s :=
  h.sublist ((issued_grows X l s).sublist.map _)

theorem calls {s : State T} (h : Reachable (system X T) s) (hids : Distinct s) : Calls s :=
  reachable_invariant_under Distinct Calls (fun l _ _ => distinct_of_step l)
    (fun _ => init_calls) (fun l _ hr _ hH hi => step_calls l (pointers hr) hH hi) h hids

end Calls

/-! ## The places of a request -/

/-- The body the driver's loop holds. -/
def driverHolds : DriverPc → List Bytes
  | .writing r => [r.val.data_]
  | .queueing msg => [msg.val.json_form_of_message]
  | _ => []

/-- The body the session's loop holds. -/
def sessionHolds : SessionPc → List Bytes
  | .queueing reply => [reply.json_form_of_message]
  | .writing r => [r.data_]
  | _ => []

/-- The bodies between `writeOneBuffer`'s pop and `queueTheResponse`: held by
one of the loops, on the wire, or in the session's queue. -/
def onTheWay (s : State T) : List Bytes :=
  driverHolds s.driver ++ s.toSession.map Frame.body ++ sessionHolds s.session ++
    s.bufferQueue.map PicoRecord.data_ ++ s.toDriver.map Frame.body

/-- Where a request can be: in the request queue, on the way, in
`responseQueue_` as its response, or returned. -/
def places (s : State T) : List Bytes :=
  s.requestQueue.map (fun r => r.val.data_) ++ onTheWay s ++
    s.responseQueue.map (fun p => p.val.json_form_of_message) ++
    s.returned.map fun e => e.2.val.json_form_of_message

theorem onTheWay_of_at {s : State T} {k : Token} (h : At s k) : onTheWay s = k.bodies := by
  cases k with
  | home =>
    rcases h with ⟨hd | hd | ⟨hd, -⟩, hs, ⟨hto, hbuf, hback⟩, -⟩
    · simp [onTheWay, hd, hs, hto, hbuf, hback, driverHolds, sessionHolds, Token.bodies]
    · simp [onTheWay, hd, hs, hto, hbuf, hback, driverHolds, sessionHolds, Token.bodies]
    · simp [onTheWay, hd, hs, hto, hbuf, hback, driverHolds, sessionHolds, Token.bodies]
  | taken b =>
    rcases h with ⟨⟨addr, hd⟩, hs, ⟨hto, hbuf, hback⟩, -⟩
    simp [onTheWay, hd, hs, hto, hbuf, hback, driverHolds, sessionHolds, Token.bodies]
  | sent b =>
    rcases h with ⟨hd, hs, ⟨f, hf, hto, hbuf, hback⟩, -⟩
    simp [onTheWay, hd, hs, hto, hbuf, hback, hf, driverHolds, sessionHolds, Token.bodies]
  | parsed b =>
    rcases h with ⟨hd, ⟨m, hm, hs⟩, ⟨hto, hbuf, hback⟩, -⟩
    simp [onTheWay, hd, hs, hto, hbuf, hback, hm, driverHolds, sessionHolds, Token.bodies]
  | queued b =>
    rcases h with ⟨hd, hs | hs, ⟨hto, hbuf, hback⟩, -⟩
    · simp [onTheWay, hd, hs, hto, hbuf, hback, driverHolds, sessionHolds, Token.bodies]
    · simp [onTheWay, hd, hs, hto, hbuf, hback, driverHolds, sessionHolds, Token.bodies]
  | popped b =>
    rcases h with ⟨hd, hs, ⟨hto, hbuf, hback⟩, -⟩
    simp [onTheWay, hd, hs, hto, hbuf, hback, driverHolds, sessionHolds, Token.bodies]
  | answered b =>
    rcases h with ⟨hd, hs, ⟨f, hf, hto, hbuf, hback⟩, -⟩
    simp [onTheWay, hd, hs, hto, hbuf, hback, hf, driverHolds, sessionHolds, Token.bodies]
  | arrived b =>
    rcases h with ⟨⟨p, hp, hd⟩, hs, ⟨hto, hbuf, hback⟩, -⟩
    simp [onTheWay, hd, hs, hto, hbuf, hback, hp, driverHolds, sessionHolds, Token.bodies]

/-- No step makes or drops a body. -/
structure Conserved (X : Externals) (s : State T) : Prop where
  bodies : (places s).Perm (s.issued.map PicoMessage.json_form_of_message)
  parsed : ∀ e ∈ s.returned, Parsed X e.2.val

/-- The places after a step that moves the token and may pop or push. -/
theorem places_of_moved {s s' : State T} {k k' : Token} (hat : At s k) (hat' : At s' k')
    (hmoved : Moved s s' k k') (hreturned : s'.returned = s.returned) :
    (places s').Perm (places s) := by
  rw [List.perm_iff_count]
  intro b
  cases hmoved with
  | along hbodies hrequest hresponse =>
    rw [places, places, onTheWay_of_at hat, onTheWay_of_at hat', hbodies, hrequest, hresponse,
      hreturned]
  | pops r hpop hbefore hafter hresponse =>
    rw [places, places, onTheWay_of_at hat, onTheWay_of_at hat', hbefore, hafter, hpop, hresponse,
      hreturned]
    simp only [List.map_append, List.map_cons, List.map_nil, List.count_append, List.count_nil]
    omega
  | delivers p _ hbefore hafter hrequest hresponse =>
    rw [places, places, onTheWay_of_at hat, onTheWay_of_at hat', hbefore, hafter, hrequest,
      hresponse, hreturned]
    simp only [List.map_append, List.map_cons, List.map_nil, List.count_append, List.count_nil]
    omega

/-- Taking one pointer out of the response queue. -/
theorem perm_cons_remove {p : SharedPtr PicoMessage} {l : List (SharedPtr PicoMessage)}
    (hnodup : (l.map SharedPtr.addr).Nodup) (hp : p ∈ l) :
    l.Perm (p :: remove (fun q => q.addr == p.addr) l) := by
  rw [remove_eq_filter_of_nodup SharedPtr.addr p.addr hnodup]
  have hsame : l.filter (fun q => !(q.addr == p.addr)) = l.erase p := by
    rw [(List.Nodup.of_map _ hnodup).erase_eq_filter]
    refine List.filter_congr fun q hq => ?_
    by_cases haddr : q.addr = p.addr
    · simp [List.inj_on_of_nodup_map hnodup hq hp haddr]
    · have hne : q ≠ p := fun heq => haddr (congrArg SharedPtr.addr heq)
      rw [bne, beq_false_of_ne haddr, beq_false_of_ne hne]
  rw [hsame]
  exact List.perm_cons_erase hp

/-- What an echoing session needs of a request: both ends recognise its body
and parse it, and find the id in it. -/
def Echoed (X : Externals) (m : PicoMessage) : Prop :=
  ∃ m', receive X m.json_form_of_message = .ok (some m') ∧ m'.messageId = m.messageId

theorem messageId_of_parsed {m m' : PicoMessage} (hecho : Echoed X m) (hm' : Parsed X m')
    (heq : m'.json_form_of_message = m.json_form_of_message) : m'.messageId = m.messageId := by
  rcases hecho with ⟨m'', hm'', hid⟩
  rw [Parsed, heq, hm''] at hm'
  cases hm'
  exact hid

/-- Requests that differ in their ids differ in their bodies. -/
theorem nodup_bodies {s : State T} (hecho : ∀ m ∈ s.issued, Echoed X m) (hids : Distinct s) :
    (s.issued.map PicoMessage.json_form_of_message).Nodup := by
  refine List.Nodup.map_on ?_ (List.Nodup.of_map _ hids)
  intro m hm m' hm' heq
  rcases hecho m hm with ⟨r, hr, hid⟩
  rcases hecho m' hm' with ⟨r', hr', hid'⟩
  rw [heq, hr'] at hr
  cases hr
  exact List.inj_on_of_nodup_map hids hm hm' (hid.symm.trans hid')

/-- The responses that wait for a caller or were returned to one. -/
def responses (s : State T) : List PicoMessage :=
  (s.responseQueue ++ s.returned.map Prod.snd).map SharedPtr.val

variable [DecidableEq T]

theorem init_conserved {s : State T} (h : (system X T).Init s) : Conserved X s := by
  cases h
  exact ⟨List.Perm.refl _, fun e he => by cases he⟩

theorem step_conserved {s : State T} (l : Label T) (hguard : (system X T).guard l s)
    (hclean : ∀ m ∈ s.issued, Clean X m.json_form_of_message) (hinv : Inv X s)
    (hptr : Pointers X s) (hcalls : Calls s) (h : Conserved X s) :
    Conserved X ((system X T).update l s) := by
  rcases hinv with ⟨k, hat, hcarry, hreq⟩
  cases l with
  | issue t a draw t1 t2 userTimeOut =>
    refine ⟨?_, h.parsed⟩
    let msg := a.build X draw
    let curBufPtr : SharedPtr PicoRecord := ⟨s.fresh, .ofString msg.json_form_of_message⟩
    show ((s.requestQueue ++ [curBufPtr]).map (fun r => r.val.data_) ++ onTheWay s ++
        s.responseQueue.map (fun p => p.val.json_form_of_message) ++
        s.returned.map fun e => e.2.val.json_form_of_message).Perm
      ((s.issued ++ [msg]).map PicoMessage.json_form_of_message)
    have hdata : curBufPtr.val.data_ = msg.json_form_of_message := rfl
    have hbodies := h.bodies
    rw [List.perm_iff_count] at hbodies ⊢
    intro b
    have hb := hbodies b
    simp only [places, List.map_append, List.map_cons, List.map_nil, List.count_append,
      hdata] at hb ⊢
    omega
  | caller t locked =>
    have hsame := callerStep_sameLoops X t locked s
    have hway : onTheWay (callerStep X t locked s) = onTheWay s := by
      rw [onTheWay, onTheWay, hsame.driver, hsame.toSession, hsame.session, hsame.bufferQueue,
        hsame.toDriver]
    rw [update_caller]
    rcases callerStep_responses X t locked s with ⟨c, p, hpc, hq, hret⟩ | ⟨hq, hret⟩
    · -- one body moves from the response queue to the returned ones
      have hin := mem_of_removing hcalls hpc
      refine ⟨?_, ?_⟩
      · have hperm := (perm_cons_remove hptr.nodup hin).map
          fun p => p.val.json_form_of_message
        have hbodies := h.bodies
        rw [places, hway, hsame.requestQueue, hsame.issued, hq, hret]
        rw [List.perm_iff_count] at hbodies hperm ⊢
        intro b
        have hb := hbodies b
        have hp := hperm b
        simp only [places, List.map_append, List.map_cons, List.map_nil, List.count_append,
          List.count_cons, List.count_nil] at hb hp ⊢
        omega
      · rw [hret]
        have hlast := hptr.parsed p hin
        exact List.forall_mem_append.mpr ⟨h.parsed, List.forall_mem_singleton.mpr hlast⟩
    · refine ⟨?_, by rw [hret]; exact h.parsed⟩
      rw [places, hway, hsame.requestQueue, hsame.issued, hq, hret]
      exact h.bodies
  | driver M =>
    have hsame := driverStep_sameCalls X M s
    rcases driverStep_moved M hat hreq hcarry hclean hguard.2 with ⟨k', hat', hmoved⟩
    rw [update_driver]
    refine ⟨?_, ?_⟩
    · rw [hsame.issued]
      exact (places_of_moved hat hat' hmoved hsame.returned).trans h.bodies
    · rw [hsame.returned]
      exact h.parsed
  | session dangling M =>
    have hsame := sessionStep_sameCalls X dangling M s
    have hframe := sessionStep_frame X dangling M s
    rcases sessionStep_moved dangling M hat hreq hcarry hclean hguard.2 with ⟨k', hat', hbodies⟩
    rw [update_session]
    refine ⟨?_, ?_⟩
    · rw [hsame.issued]
      exact (places_of_moved hat hat' (.along hbodies hframe.1 hframe.2.1) hsame.returned).trans
        h.bodies
    · rw [hsame.returned]
      exact h.parsed

theorem conserved {s : State T} (h : Reachable (system X T) s)
    (hecho : ∀ m ∈ s.issued, Echoed X m) (hids : Distinct s) : Conserved X s := by
  refine reachable_invariant_under (fun s => (∀ m ∈ s.issued, Echoed X m) ∧ Distinct s)
    (Conserved X) ?_ (fun _ => init_conserved) ?_ h ⟨hecho, hids⟩
  · intro l s _ hH
    exact ⟨fun m hm => hH.1 m ((issued_grows X l s).subset hm), distinct_of_step l hH.2⟩
  · intro l s hr hg hH hi
    have hclean : ∀ m ∈ s.issued, Clean X m.json_form_of_message := by
      intro m hm
      rcases hH.1 m ((issued_grows X l s).subset hm) with ⟨m', hm', -⟩
      exact ⟨m', hm'⟩
    exact step_conserved l hg hclean (safety hr hclean) (pointers hr)
      (calls hr (distinct_of_step l hH.2)) hi

/-- A response is that of one request, by its body and by its id. -/
theorem request_of_response {s : State T} (h : Reachable (system X T) s)
    (hecho : ∀ m ∈ s.issued, Echoed X m) (hids : Distinct s) {r : PicoMessage}
    (hr : r ∈ responses s) :
    ∃ m ∈ s.issued, r.json_form_of_message = m.json_form_of_message ∧
      r.messageId = m.messageId := by
  have hcons := conserved h hecho hids
  rcases List.mem_map.mp hr with ⟨p, hp, rfl⟩
  have hfound : p.val.json_form_of_message ∈ places s ∧ Parsed X p.val := by
    rcases List.mem_append.mp hp with hp | hp
    · refine ⟨List.mem_append_left _ (List.mem_append_right _ ?_), (pointers h).parsed p hp⟩
      exact List.mem_map_of_mem hp
    · rcases List.mem_map.mp hp with ⟨e, he, rfl⟩
      exact ⟨List.mem_append_right _ (List.mem_map_of_mem he), hcons.parsed e he⟩
  rcases List.mem_map.mp (hcons.bodies.subset hfound.1) with ⟨m, hm, heq⟩
  exact ⟨m, hm, heq.symm, messageId_of_parsed (hecho m hm) hfound.2 heq.symm⟩

/-- **Nothing is lost, duplicated or misrouted.** In every reachable state
whose requests have distinct ids and are echoed, for any number of application
threads:

* the body of each request is at exactly one place, and the places hold nothing
  else;
* what waits in `responseQueue_` or was returned is the response to a request;
* a call returned only the response to its own request, and no response was
  returned twice;
* no response to the request of a call that gave up was returned. -/
theorem each_request_once {s : State T} (h : Reachable (system X T) s)
    (hecho : ∀ m ∈ s.issued, Echoed X m) (hids : Distinct s) :
    ((∀ m ∈ s.issued, (places s).count m.json_form_of_message = 1) ∧
        ∀ b ∈ places s, ∃ m ∈ s.issued, m.json_form_of_message = b) ∧
      (∀ r ∈ responses s, ∃ m ∈ s.issued,
        r.json_form_of_message = m.json_form_of_message ∧ r.messageId = m.messageId) ∧
      ((∀ e ∈ s.returned, e.1.msg ∈ s.issued ∧ e.2.val.messageId = e.1.msg.messageId) ∧
        (s.returned.map fun e => e.2.val.messageId).Nodup) ∧
      ∀ e ∈ s.gaveUp, e.1.msg ∈ s.issued ∧
        ∀ r ∈ s.returned, r.2.val.messageId ≠ e.1.msg.messageId := by
  have hcons := conserved h hecho hids
  have hcalls := calls h hids
  refine ⟨⟨fun m hm => ?_, fun b hb => ?_⟩, fun r => request_of_response h hecho hids,
    ⟨hcalls.returned, ?_⟩, fun e he => ?_⟩
  · rw [hcons.bodies.count_eq]
    exact List.count_eq_one_of_mem (nodup_bodies hecho hids) (List.mem_map_of_mem hm)
  · exact List.mem_map.mp (hcons.bodies.subset hb)
  · rw [List.map_congr_left fun e he => (hcalls.returned e he).2]
    exact hcalls.once
  · refine ⟨(hcalls.gaveUp e he).1, fun r hr => ?_⟩
    rw [(hcalls.returned r hr).2]
    exact (hcalls.gaveUp e he).2 r hr

theorem each_request_once_sample :
    (∀ t, (places sampleEnd).count (sampleMessage t).json_form_of_message = 1) ∧
      ∀ e ∈ sampleEnd.returned, e.2.val.messageId = e.1.msg.messageId := by
  have hecho : ∀ m ∈ sampleEnd.issued, Echoed sampleLibrary m := by
    intro m hm
    obtain ⟨t, rfl⟩ := mem_issued_sampleEnd.mp hm
    exact receive_sample t
  have hids : Distinct sampleEnd := by
    rw [Distinct, sampleRun_fires.2.1]
    decide +kernel
  have honce := each_request_once reachable_sampleEnd hecho hids
  exact ⟨fun t => honce.1.1 _ (mem_issued_sampleEnd.mpr ⟨t, rfl⟩),
    fun e he => (honce.2.2.1.1 e he).2⟩

end PicoDB.Responses
