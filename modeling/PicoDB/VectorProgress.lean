import PicoDB.VectorCalls

/-!
# PicoDB.VectorProgress — calls of a `ConcurrentVector` come back

Nobody waits in a queue for the lock: a thread tries again until it finds the lock free,
so a `push_back` or a `pop` may be overtaken for ever. But whoever has the lock gives it
back, so that some call returns as long as any is in progress, and a `peek` does not try
twice (`returns`).
-/

namespace PicoDB.ConcurrentVector

open Lts

variable {α T : Type} [DecidableEq T]

/-- Every thread in a call gets its turn. -/
def Fair (π : Path (vector α T)) : Prop :=
  ∀ t k, ∃ j, k ≤ j ∧ (π.label j = some (.thread t) ∨ (π.state j).threads t = .outside)

/-- The call of thread `t` returns at moment `k` or later. -/
def ReturnsFrom (π : Path (vector α T)) (k : Nat) (t : T) : Prop :=
  ∃ j, k ≤ j ∧ π.label j = some (.thread t) ∧ (π.state (j + 1)).threads t = .outside

theorem ReturnsFrom.mono {π : Path (vector α T)} {k j : Nat} {t : T} (h : ReturnsFrom π j t)
    (hkj : k ≤ j) : ReturnsFrom π k t := by
  obtain ⟨i, hji, hlabel, hout⟩ := h
  exact ⟨i, hkj.trans hji, hlabel, hout⟩

/-- The other threads stay where they are. -/
theorem threadStep_other {t u : T} (htu : t ≠ u) (s : State α T) :
    (threadStep u s).threads t = s.threads t := by
  unfold threadStep
  repeat' split
  all_goals simp [htu, takeEffect]

theorem update_other {l : Label α T} {s : State α T} (hg : (vector α T).guard l s) {t : T}
    (hl : l ≠ .thread t) (ht : s.threads t ≠ .outside) :
    ((vector α T).update l s).threads t = s.threads t := by
  cases l with
  | call u op =>
    have htu : t ≠ u := by
      rintro rfl
      exact ht hg.2
    exact Function.update_of_ne htu _ _
  | thread u =>
    have htu : t ≠ u := by
      rintro rfl
      exact hl rfl
    exact threadStep_other htu s

section Paths

variable {π : Path (vector α T)} (hfair : Fair π)

include hfair

/-- A thread in a call takes its step. -/
theorem thread_moves {t : T} {k : Nat} (hk : (π.state k).threads t ≠ .outside) :
    ∃ j, k ≤ j ∧ (π.state j).threads t = (π.state k).threads t ∧ π.label j = some (.thread t) ∧
      π.state (j + 1) = threadStep t (π.state j) := by
  obtain ⟨j, hkj, hsame, l, hl, rfl⟩ := π.taken_of_ready
    (fun s => s.threads t = (π.state k).threads t) (fun l => l = .thread t)
    (fun i => by
      obtain ⟨j, hij, htaken | hout⟩ := hfair t i
      · exact ⟨j, hij, Or.inl ⟨_, htaken, rfl⟩⟩
      · exact ⟨j, hij, Or.inr fun hsame => hk (hsame.symm.trans hout)⟩)
    (fun l s hg hl hs => (update_other hg hl (by rwa [hs])).trans hs) rfl
  exact ⟨j, hkj, hsame, hl, (π.fires j _ hl).2⟩

/-- A call that is about to return does. -/
theorem returns_of_returning {t : T} {msg : Option α} {k : Nat}
    (hk : (π.state k).threads t = .returning msg) : ReturnsFrom π k t := by
  obtain ⟨j, hkj, hsame, hlabel, hnext⟩ := thread_moves hfair (by rw [hk]; nofun)
  refine ⟨j, hkj, hlabel, ?_⟩
  rw [hnext, threadStep, hsame.trans hk]
  simp

variable (hreach : Reachable (vector α T) (π.state 0))

include hreach

/-- A call returns if it does from where its next step leads. -/
theorem returns_of_step {t : T} {k : Nat} (hk : (π.state k).threads t ≠ .outside)
    (hstep : ∀ s, Inv s → s.threads t = (π.state k).threads t →
      ∃ pc, (threadStep t s).threads t = pc ∧
        ∀ i, (π.state i).threads t = pc → ReturnsFrom π i t) :
    ReturnsFrom π k t := by
  obtain ⟨j, hkj, hsame, -, hnext⟩ := thread_moves hfair hk
  obtain ⟨pc, hpc, hthen⟩ := hstep _ (inv_of_reachable (π.reachable hreach j)) hsame
  exact (hthen (j + 1) (hnext ▸ hpc)).mono (Nat.le_succ_of_le hkj)

theorem returns_of_unlocking {t : T} {msg : Option α} {k : Nat}
    (hk : (π.state k).threads t = .unlocking msg) : ReturnsFrom π k t := by
  refine returns_of_step hfair hreach (by rw [hk]; nofun) fun s _ hs =>
    ⟨.returning msg, ?_, fun _ => returns_of_returning hfair⟩
  rw [threadStep, hs.trans hk]
  simp

theorem returns_of_shrinking {t : T} {msg : α} {k : Nat}
    (hk : (π.state k).threads t = .shrinking msg) : ReturnsFrom π k t := by
  refine returns_of_step hfair hreach (by rw [hk]; nofun) fun s hi hs =>
    ⟨.unlocking (some msg), ?_, fun _ => returns_of_unlocking hfair hreach⟩
  have hlooks := (hi.good t).looks
  rw [hs.trans hk] at hlooks
  have hne : s.underlying_list ≠ [] := by
    intro hnil
    rw [Looks, hnil] at hlooks
    cases hlooks
  rw [threadStep, hs.trans hk]
  simp [hne]

theorem returns_of_copying {t : T} {op : Op α} {k : Nat}
    (hk : (π.state k).threads t = .copying op) : ReturnsFrom π k t := by
  refine returns_of_step hfair hreach (by rw [hk]; nofun) fun s hi hs => ?_
  have hlooks := (hi.good t).looks
  rw [hs.trans hk] at hlooks
  obtain ⟨msg, hlast⟩ :=
    Option.ne_none_iff_exists'.mp (mt List.getLast?_eq_none_iff.mp hlooks.1)
  rw [threadStep, hs.trans hk]
  cases op with
  | push_back msg => exact absurd rfl (hlooks.2 msg)
  | pop =>
    refine ⟨.shrinking msg, ?_, fun _ => returns_of_shrinking hfair hreach⟩
    simp [hlast]
  | peek =>
    refine ⟨.unlocking (some msg), ?_, fun _ => returns_of_unlocking hfair hreach⟩
    simp [hlast]

theorem returns_of_locked {t : T} {op : Op α} {k : Nat}
    (hk : (π.state k).threads t = .locked op) : ReturnsFrom π k t := by
  refine returns_of_step hfair hreach (by rw [hk]; nofun) fun s _ hs => ?_
  have hpc : (threadStep t s).threads t = .unlocking none ∨
      (threadStep t s).threads t = .copying op := by
    rw [threadStep, hs.trans hk]
    cases op with
    | push_back msg => simp
    | _ =>
      simp only
      split <;> simp
  rcases hpc with hpc | hpc
  · exact ⟨_, hpc, fun _ => returns_of_unlocking hfair hreach⟩
  · exact ⟨_, hpc, fun _ => returns_of_copying hfair hreach⟩

/-- Whoever has the lock returns. -/
theorem returns_of_holds {t : T} {k : Nat} (hk : ((π.state k).threads t).holds = true) :
    ReturnsFrom π k t := by
  cases hpc : (π.state k).threads t with
  | locked op => exact returns_of_locked hfair hreach hpc
  | copying op => exact returns_of_copying hfair hreach hpc
  | shrinking msg => exact returns_of_shrinking hfair hreach hpc
  | unlocking msg => exact returns_of_unlocking hfair hreach hpc
  | _ =>
    rw [hpc] at hk
    cases hk

/-- **Calls come back.** On every fair path from a reachable state, whenever a thread is in
a call, some call returns after that; and its own does, unless it is a `push_back` or a
`pop` that still tries to get the lock. -/
theorem returns {t : T} {k : Nat} (hk : (π.state k).threads t ≠ .outside) :
    (∃ u, ReturnsFrom π k u) ∧
      ((∀ op, (π.state k).threads t = .locking op → op = .peek) → ReturnsFrom π k t) := by
  have hown : ReturnsFrom π k t → (∃ u, ReturnsFrom π k u) ∧
      ((∀ op, (π.state k).threads t = .locking op → op = .peek) → ReturnsFrom π k t) :=
    fun h => ⟨⟨t, h⟩, fun _ => h⟩
  cases hpc : (π.state k).threads t with
  | outside => exact absurd hpc hk
  | returning msg => exact hpc ▸ hown (returns_of_returning hfair hpc)
  | locking op =>
    obtain ⟨j, hkj, hsame, -, hnext⟩ := thread_moves hfair hk
    cases hmutex : (π.state j).mutex_ with
    | none =>
      have hlocked : (π.state (j + 1)).threads t = .locked op := by
        rw [hnext, threadStep, hsame.trans hpc]
        simp [hmutex]
      exact hpc ▸ hown ((returns_of_locked hfair hreach hlocked).mono (Nat.le_succ_of_le hkj))
    | some u =>
      -- somebody else has the lock
      have hholds := ((inv_of_reachable (π.reachable hreach j)).good u).holds.mpr hmutex
      refine ⟨⟨u, (returns_of_holds hfair hreach hholds).mono hkj⟩, fun hpeek => ?_⟩
      have hop : op = .peek := hpeek op rfl
      have hreturning : (π.state (j + 1)).threads t = .returning none := by
        rw [hnext, threadStep, hsame.trans hpc, hop]
        simp [hmutex]
      exact (returns_of_returning hfair hreturning).mono (Nat.le_succ_of_le hkj)
  | _ =>
    have hholds : ((π.state k).threads t).holds = true := by
      rw [hpc]
      rfl
    exact hpc ▸ hown (returns_of_holds hfair hreach hholds)

end Paths

/-- The other thread has the lock. -/
theorem returns_peeksTooEarly :
    ∃ π : Path (vector Nat Bool), (π.state 0).threads true = .locking .peek ∧
      (π.state 0).mutex_ = some false ∧ ReturnsFrom π 0 true := by
  have hreach : Reachable (vector Nat Bool) (after (vector Nat Bool) (peeksTooEarly.take 3) {}) :=
    ⟨_, run_of_fires rfl (by decide +kernel)⟩
  have hstart : (after (vector Nat Bool) (peeksTooEarly.take 3) {}).threads true = .locking .peek ∧
      (after (vector Nat Bool) (peeksTooEarly.take 3) {}).mutex_ = some false := by
    decide +kernel
  have hfires : Fires (vector Nat Bool) ((peeksTooEarly.drop 3).take 5)
      (after (vector Nat Bool) (peeksTooEarly.take 3) {}) := by decide +kernel
  obtain ⟨π, hzero, htail, -⟩ := Path.exists_resting _ _ hfires
  have hout : ∀ t, (after (vector Nat Bool) ((peeksTooEarly.drop 3).take 5)
      (after (vector Nat Bool) (peeksTooEarly.take 3) {})).threads t = .outside := by
    decide +kernel
  have hfair : Fair π := fun t k =>
    ⟨_, Nat.le_add_left k _, Or.inr (by rw [(htail k).1]; exact hout t)⟩
  rw [← hzero] at hstart hreach
  refine ⟨π, hstart.1, hstart.2, (returns hfair hreach ?_).2 fun op hop => ?_⟩
  · rw [hstart.1]
    nofun
  · rw [hstart.1] at hop
    cases hop
    rfl

end PicoDB.ConcurrentVector
