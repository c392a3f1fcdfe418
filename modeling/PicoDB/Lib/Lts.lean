import Mathlib.Data.List.Basic
import Mathlib.Data.Nat.Find
import Mathlib.Logic.Function.Iterate
import Mathlib.Logic.Relation
import Mathlib.Order.Monotone.Basic
import Mathlib.Order.WellFounded

/-!
# Lts — guarded transition systems and their runs

A system is given by its initial states, the guard of every label and the
state a label leaves. Runs are finite and keep, next to each label, the state
it fired in, so that a condition on the steps of a run is a condition on the
members of its trace. The rules below are the only way the developments built
on this file reason about runs:

* `run_invariant`: an inductive invariant holds wherever a run arrives;
* `run_invariant_of`: the same, for the runs whose steps all meet a condition;
* `run_forall_iff`: two conditions on steps that are equivalent under it are
  equivalent along runs;
* `reachable_invariant_under`, `run_invariant_under`: the same two, under a state
  predicate that only ever gets stronger along a run (an assumption on
  everything that has happened so far);
* `run_simulates`: a refinement mapping sends runs to runs.

What happens eventually is said of infinite paths, which may stutter:

* `Path.invariant_while`: what holds at every place of a path for as long as a
  state predicate does;
* `Path.taken_of_ready`: under weak fairness, a step that stays ready is taken;
* `Path.eventually_const`: a variant that is never raised comes to rest;
* `Path.until_of_variant`: under fairness, a variant that helpful steps lower
  brings about the step that was waited for.
-/

namespace Lts

universe u v w x

/-- A guarded system over states `σ` and labels `α`. -/
structure System (σ : Type u) (α : Type v) where
  /-- Where runs start. -/
  Init : σ → Prop
  /-- When a label may fire. -/
  guard : α → σ → Prop
  /-- The state a label leaves. -/
  update : α → σ → σ

variable {σ : Type u} {α : Type v}

/-- `Run M tr s`: the steps `tr`, oldest first, lead from an initial state of
`M` to `s`. -/
inductive Run (M : System σ α) : List (σ × α) → σ → Prop where
  | start {s : σ} : M.Init s → Run M [] s
  | next {tr : List (σ × α)} {s : σ} {l : α} :
      Run M tr s → M.guard l s → Run M (tr ++ [(s, l)]) (M.update l s)

/-- `s` is reached by some run. -/
def Reachable (M : System σ α) (s : σ) : Prop := ∃ tr, Run M tr s

/-- `s'` comes after some number of steps from `s`. -/
def Leads (M : System σ α) : σ → σ → Prop :=
  Relation.ReflTransGen fun s s' => ∃ l, M.guard l s ∧ M.update l s = s'

theorem leads_of_guard {M : System σ α} {l : α} {s : σ} (h : M.guard l s) :
    Leads M s (M.update l s) :=
  .single ⟨l, h, rfl⟩

theorem Reachable.leads {M : System σ α} {s s' : σ} (h : Reachable M s) (hl : Leads M s s') :
    Reachable M s' := by
  induction hl with
  | refl => exact h
  | tail _ hstep ih =>
    rcases hstep with ⟨l, hg, rfl⟩
    rcases ih with ⟨tr, hr⟩
    exact ⟨_, .next hr hg⟩

/-- The labels of a list fire one after the other from `s`. -/
def Fires (M : System σ α) : List α → σ → Prop
  | [], _ => True
  | l :: ls, s => M.guard l s ∧ Fires M ls (M.update l s)

instance (M : System σ α) [∀ l s, Decidable (M.guard l s)] :
    ∀ (ls : List α) (s : σ), Decidable (Fires M ls s)
  | [], _ => .isTrue trivial
  | l :: ls, s =>
    have : Decidable (Fires M ls (M.update l s)) :=
      instDecidableFiresOfGuard M ls (M.update l s)
    inferInstanceAs (Decidable (M.guard l s ∧ Fires M ls (M.update l s)))

/-- The state a list of labels leaves. -/
def after (M : System σ α) (ls : List α) (s : σ) : σ := ls.foldl (fun s l => M.update l s) s

theorem after_append (M : System σ α) (a b : List α) (s : σ) :
    after M (a ++ b) s = after M b (after M a s) := List.foldl_append

/-- The trace of a list of labels from `s`. -/
def trace (M : System σ α) : List α → σ → List (σ × α)
  | [], _ => []
  | l :: ls, s => (s, l) :: trace M ls (M.update l s)

theorem mem_of_mem_trace {M : System σ α} {ls : List α} {s : σ} {p : σ × α}
    (h : p ∈ trace M ls s) : p.2 ∈ ls := by
  induction ls generalizing s with
  | nil => cases h
  | cons l ls ih =>
    rcases List.mem_cons.mp h with rfl | h
    · exact List.mem_cons_self
    · exact List.mem_cons_of_mem l (ih h)

theorem run_fires {M : System σ α} (ls : List α) {tr : List (σ × α)} {s : σ}
    (h : Run M tr s) (hf : Fires M ls s) : Run M (tr ++ trace M ls s) (after M ls s) := by
  induction ls generalizing tr s with
  | nil => simpa [trace, after] using h
  | cons l ls ih =>
    have hnext : Run M (tr ++ [(s, l)]) (M.update l s) := .next h hf.1
    simpa [trace, after] using ih hnext hf.2

theorem fires_append {M : System σ α} {a b : List α} {s : σ} :
    Fires M (a ++ b) s ↔ Fires M a s ∧ Fires M b (after M a s) := by
  induction a generalizing s with
  | nil => simp [Fires, after]
  | cons l a ih =>
    rw [List.cons_append, Fires, Fires, ih, and_assoc]
    rfl

theorem trace_append (M : System σ α) (a b : List α) (s : σ) :
    trace M (a ++ b) s = trace M a s ++ trace M b (after M a s) := by
  induction a generalizing s with
  | nil => rfl
  | cons l a ih =>
    rw [List.cons_append, trace, trace, ih, List.cons_append]
    rfl

/-- A list of labels that fires from an initial state is a run. -/
theorem run_of_fires {M : System σ α} {ls : List α} {s : σ} (h : M.Init s)
    (hf : Fires M ls s) : Run M (trace M ls s) (after M ls s) := by
  simpa using run_fires ls (.start h) hf

/-! ## Invariant rules -/

/-- An inductive invariant holds at the end of every run whose steps all meet
`C`. -/
theorem run_invariant_of {M : System σ α} (C : σ → α → Prop) (Inv : σ → Prop)
    (hinit : ∀ s, M.Init s → Inv s)
    (hstep : ∀ l s, M.guard l s → C s l → Inv s → Inv (M.update l s))
    {tr : List (σ × α)} {s : σ} (h : Run M tr s) (hC : ∀ p ∈ tr, C p.1 p.2) : Inv s := by
  induction h with
  | start hs => exact hinit _ hs
  | @next tr s l _ hg ih =>
    have hpre : Inv s := ih fun p hp => hC p (List.mem_append_left _ hp)
    have hlast : C s l := hC (s, l) (by simp)
    exact hstep l s hg hlast hpre

/-- Two conditions on steps that say the same wherever an invariant holds say
the same of whole runs, if one of them keeps the invariant. -/
theorem run_forall_iff {M : System σ α} (Inv : σ → Prop) (C D : σ → α → Prop)
    (hinit : ∀ s, M.Init s → Inv s)
    (hstep : ∀ l s, M.guard l s → C s l → Inv s → Inv (M.update l s))
    (hiff : ∀ l s, M.guard l s → Inv s → (C s l ↔ D s l))
    {tr : List (σ × α)} {s : σ} (h : Run M tr s) :
    (∀ p ∈ tr, C p.1 p.2) ↔ ∀ p ∈ tr, D p.1 p.2 := by
  induction h with
  | start _ => simp
  | @next tr s l hr hg ih =>
    rw [List.forall_mem_append, List.forall_mem_append, List.forall_mem_singleton,
      List.forall_mem_singleton]
    constructor
    · intro hC
      have hinv : Inv s := run_invariant_of C Inv hinit hstep hr hC.1
      exact ⟨ih.mp hC.1, (hiff l s hg hinv).mp hC.2⟩
    · intro hD
      have hC := ih.mpr hD.1
      have hinv : Inv s := run_invariant_of C Inv hinit hstep hr hC
      exact ⟨hC, (hiff l s hg hinv).mpr hD.2⟩

/-- An inductive invariant holds at the end of every run. -/
theorem run_invariant {M : System σ α} (Inv : σ → Prop)
    (hinit : ∀ s, M.Init s → Inv s)
    (hstep : ∀ l s, M.guard l s → Inv s → Inv (M.update l s))
    {tr : List (σ × α)} {s : σ} (h : Run M tr s) : Inv s :=
  run_invariant_of (fun _ _ => True) Inv hinit (fun l s hg _ hi => hstep l s hg hi) h
    (fun _ _ => trivial)

/-- An inductive invariant holds at every reachable state. -/
theorem reachable_invariant {M : System σ α} (Inv : σ → Prop)
    (hinit : ∀ s, M.Init s → Inv s)
    (hstep : ∀ l s, M.guard l s → Inv s → Inv (M.update l s))
    {s : σ} (h : Reachable M s) : Inv s := by
  rcases h with ⟨tr, hr⟩
  exact run_invariant Inv hinit hstep hr

/-- Invariance under an assumption `H` that a step can only make stronger: if
it holds after a step it held before. Whatever `H` says of the end of a run
then holds all along it. -/
theorem reachable_invariant_under {M : System σ α} (H Inv : σ → Prop)
    (hmono : ∀ l s, M.guard l s → H (M.update l s) → H s)
    (hinit : ∀ s, M.Init s → Inv s)
    (hstep : ∀ l s, Reachable M s → M.guard l s → H (M.update l s) → Inv s → Inv (M.update l s))
    {s : σ} (h : Reachable M s) (hH : H s) : Inv s := by
  rcases h with ⟨tr, hr⟩
  induction hr with
  | start hs => exact hinit _ hs
  | @next tr s l hr hg ih => exact hstep l s ⟨tr, hr⟩ hg hH (ih (hmono l s hg hH))

/-- The same, for the runs whose steps all meet `C`. -/
theorem run_invariant_under {M : System σ α} (H : σ → Prop) (C : σ → α → Prop) (Inv : σ → Prop)
    (hmono : ∀ l s, M.guard l s → H (M.update l s) → H s)
    (hinit : ∀ s, M.Init s → Inv s)
    (hstep : ∀ l s, M.guard l s → C s l → H s → Inv s → Inv (M.update l s))
    {tr : List (σ × α)} {s : σ} (h : Run M tr s) (hC : ∀ p ∈ tr, C p.1 p.2) (hH : H s) : Inv s := by
  induction h with
  | start hs => exact hinit _ hs
  | @next tr s l _ hg ih =>
    have hbefore : H s := hmono l s hg hH
    have hpre : Inv s := ih (fun p hp => hC p (List.mem_append_left _ hp)) hbefore
    exact hstep l s hg (hC (s, l) (by simp)) hbefore hpre

/-! ## Refinement -/

variable {τ : Type w} {β : Type x}

/-- What a step of the concrete system is in the abstract one: nothing, or one
label. -/
def mapStep (f : σ → τ) (g : σ → α → Option β) (p : σ × α) : Option (τ × β) :=
  (g p.1 p.2).map fun b => (f p.1, b)

/-- A refinement mapping `f`, with `g` naming the abstract label of a step (or
none, when the abstract state does not move), sends runs to runs. -/
theorem run_simulates {M : System σ α} {N : System τ β} (f : σ → τ) (g : σ → α → Option β)
    (hinit : ∀ s, M.Init s → N.Init (f s))
    (hstut : ∀ tr l s, Run M tr s → M.guard l s → g s l = none → f (M.update l s) = f s)
    (hstep : ∀ tr l s b, Run M tr s → M.guard l s → g s l = some b →
      N.guard b (f s) ∧ f (M.update l s) = N.update b (f s))
    {tr : List (σ × α)} {s : σ} (h : Run M tr s) :
    Run N (tr.filterMap (mapStep f g)) (f s) := by
  induction h with
  | start hs => exact .start (hinit _ hs)
  | @next tr s l hr hg ih =>
    rw [List.filterMap_append]
    cases hb : g s l with
    | none =>
      rw [hstut tr l s hr hg hb]
      simpa [mapStep, hb] using ih
    | some b =>
      obtain ⟨hguard, heq⟩ := hstep tr l s b hr hg hb
      rw [heq]
      simpa [mapStep, hb] using Run.next ih hguard

/-! ## Paths -/

/-- An infinite path: at every moment a label fires, or nothing happens. -/
structure Path (M : System σ α) where
  state : Nat → σ
  label : Nat → Option α
  fires : ∀ k l, label k = some l → M.guard l (state k) ∧ state (k + 1) = M.update l (state k)
  stutters : ∀ k, label k = none → state (k + 1) = state k

namespace Path

variable {M : System σ α} {π : Path M}

/-- The path on which one label fires over and over. -/
def repeating (M : System σ α) (l : α) (s : σ) (h : ∀ k, M.guard l ((M.update l)^[k] s)) :
    Path M where
  state k := (M.update l)^[k] s
  label _ := some l
  fires k l' hl := by
    cases hl
    exact ⟨h k, Function.iterate_succ_apply' _ _ _⟩
  stutters k hk := by cases hk

/-- The path on which nothing happens. -/
def stuttering (M : System σ α) (s : σ) : Path M where
  state _ := s
  label _ := none
  fires k l hl := by cases hl
  stutters _ _ := rfl

/-- A path with one more step in front of it. -/
def cons (l : α) (s : σ) (hg : M.guard l s) (π : Path M) (h : π.state 0 = M.update l s) :
    Path M where
  state
    | 0 => s
    | k + 1 => π.state k
  label
    | 0 => some l
    | k + 1 => π.label k
  fires
    | 0, l', hl => by
      cases hl
      exact ⟨hg, h⟩
    | k + 1, l', hl => π.fires k l' hl
  stutters
    | 0, hk => by cases hk
    | k + 1, hk => π.stutters k hk

/-- A path with a list of labels in front of it that fires. -/
theorem exists_after (ls : List α) (s : σ) (hf : Fires M ls s) (π : Path M)
    (h : π.state 0 = after M ls s) :
    ∃ π' : Path M, π'.state 0 = s ∧
      (∀ k, π'.state (ls.length + k) = π.state k ∧ π'.label (ls.length + k) = π.label k) ∧
      ∀ k, k < ls.length → ∃ p ∈ trace M ls s, π'.state k = p.1 ∧ π'.label k = some p.2 := by
  induction ls generalizing s with
  | nil => exact ⟨π, h, fun k => by simp, fun k hk => absurd hk (Nat.not_lt_zero k)⟩
  | cons l ls ih =>
    obtain ⟨π', hzero, htail, hfront⟩ := ih (M.update l s) hf.2 h
    refine ⟨cons l s hf.1 π' hzero, rfl, fun k => ?_, fun k hk => ?_⟩
    · rw [List.length_cons, Nat.add_right_comm]
      exact htail k
    · cases k with
      | zero => exact ⟨(s, l), List.mem_cons_self, rfl, rfl⟩
      | succ k =>
        obtain ⟨p, hp, hstate, hlabel⟩ := hfront k (Nat.lt_of_succ_lt_succ hk)
        exact ⟨p, List.mem_cons_of_mem _ hp, hstate, hlabel⟩

/-- A path stays where runs lead. -/
theorem reachable (h : Reachable M (π.state 0)) (k : Nat) : Reachable M (π.state k) := by
  induction k with
  | zero => exact h
  | succ k ih =>
    cases hl : π.label k with
    | none => rwa [π.stutters k hl]
    | some l =>
      obtain ⟨hg, hnext⟩ := π.fires k l hl
      rw [hnext]
      exact ih.leads (leads_of_guard hg)

/-- A path on which a list of labels fires and then nothing happens: every moment is
one of the list or one of the rest. -/
theorem exists_resting (ls : List α) (s : σ) (hf : Fires M ls s) :
    ∃ π : Path M, π.state 0 = s ∧
      (∀ k, π.state (ls.length + k) = after M ls s ∧ π.label (ls.length + k) = none) ∧
      ∀ k, (∃ p ∈ trace M ls s, π.state k = p.1 ∧ π.label k = some p.2) ∨
        π.state k = after M ls s ∧ π.label k = none := by
  obtain ⟨π, hzero, htail, hfront⟩ := exists_after ls s hf (stuttering M (after M ls s)) rfl
  refine ⟨π, hzero, htail, fun k => ?_⟩
  by_cases hk : k < ls.length
  · exact Or.inl (hfront k hk)
  · obtain ⟨j, rfl⟩ := Nat.exists_eq_add_of_le (Nat.le_of_not_lt hk)
    exact Or.inr (htail j)

/-- Whatever holds at first, and is kept by every step between two states with
`W`, holds for as long as `W` has held. `C` is what is known of the steps
taken in that time. -/
theorem invariant_while (W : σ → Prop) (C : σ → α → Prop) (Inv : σ → Prop)
    (hinit : Inv (π.state 0))
    (hC : ∀ k, (∀ i ≤ k, W (π.state i)) → ∀ l, π.label k = some l → C (π.state k) l)
    (hstep : ∀ l s, M.guard l s → C s l → W s → Inv s → W (M.update l s) → Inv (M.update l s)) :
    ∀ k, (∀ i ≤ k, W (π.state i)) → Inv (π.state k) := by
  intro k
  induction k with
  | zero => exact fun _ => hinit
  | succ k ih =>
    intro hW
    have hbefore : ∀ i ≤ k, W (π.state i) := fun i hi => hW i (Nat.le_succ_of_le hi)
    have hinv := ih hbefore
    cases hl : π.label k with
    | none => rwa [π.stutters k hl]
    | some l =>
      obtain ⟨hg, hnext⟩ := π.fires k l hl
      have hafter : W (M.update l (π.state k)) := hnext ▸ hW (k + 1) (le_refl _)
      rw [hnext]
      exact hstep l _ hg (hC k hbefore l hl) (hbefore k (le_refl _)) hinv hafter

/-- **Variant rule.** `p` holds at first. Every step from `p` keeps `p` and does
not raise the variant, or is the one that is waited for (`q`); a helpful step
lowers the variant; and as long as `p` has held, a helpful step comes. Then the
step that is waited for is taken, with `p` all the way to it. -/
theorem until_of_variant (p : σ → Prop) (q : σ → σ → Prop) (C : σ → α → Prop) (helpful : α → Prop)
    (variant : σ → Nat) (hinit : p (π.state 0))
    (hC : ∀ k, (∀ i ≤ k, p (π.state i)) → ∀ l, π.label k = some l → C (π.state k) l)
    (hfair : ∀ k, (∀ i ≤ k, p (π.state i)) → ∃ j, k ≤ j ∧ ∃ l, π.label j = some l ∧ helpful l)
    (hstep : ∀ l s, M.guard l s → C s l → p s →
      q s (M.update l s) ∨ (p (M.update l s) ∧ variant (M.update l s) ≤ variant s))
    (hhelp : ∀ l s, M.guard l s → C s l → helpful l → p s →
      q s (M.update l s) ∨ variant (M.update l s) < variant s) :
    ∃ k, (∀ i ≤ k, p (π.state i)) ∧ q (π.state k) (π.state (k + 1)) := by
  by_contra hnever
  have hnoq : ∀ k, (∀ i ≤ k, p (π.state i)) → ¬ q (π.state k) (π.state (k + 1)) :=
    fun k hk hq => hnever ⟨k, hk, hq⟩
  -- then `p` holds for ever, and the variant is never raised
  have hnext : ∀ k, (∀ i ≤ k, p (π.state i)) →
      p (π.state (k + 1)) ∧ variant (π.state (k + 1)) ≤ variant (π.state k) := by
    intro k hk
    cases hl : π.label k with
    | none =>
      rw [π.stutters k hl]
      exact ⟨hk k (le_refl _), le_refl _⟩
    | some l =>
      obtain ⟨hg, heq⟩ := π.fires k l hl
      have hno := hnoq k hk
      rw [heq] at hno ⊢
      exact (hstep l _ hg (hC k hk l hl) (hk k (le_refl _))).resolve_left hno
  have hall : ∀ k, ∀ i ≤ k, p (π.state i) := by
    intro k
    induction k with
    | zero =>
      intro i hi
      rw [Nat.le_zero.mp hi]
      exact hinit
    | succ k ih =>
      intro i hi
      rcases Nat.le_succ_iff.mp hi with hle | rfl
      · exact ih i hle
      · exact (hnext k ih).1
  have hanti : Antitone fun k => variant (π.state k) :=
    antitone_nat_of_succ_le fun k => (hnext k (hall k)).2
  -- from where it is least a helpful step lowers it once more
  obtain ⟨k, hleast⟩ : ∃ k, ∀ j, variant (π.state k) ≤ variant (π.state j) :=
    ⟨_, fun j => Function.argmin_le (fun k => variant (π.state k)) j⟩
  obtain ⟨j, hkj, l, hl, hhelpful⟩ := hfair k (hall k)
  obtain ⟨hg, heq⟩ := π.fires j l hl
  have hno := hnoq j (hall j)
  rw [heq] at hno
  have hlower :=
    (hhelp l _ hg (hC j (hall j) l hl) hhelpful (hall j j (le_refl _))).resolve_left hno
  rw [← heq] at hlower
  have hle : variant (π.state j) ≤ variant (π.state k) := hanti hkj
  exact absurd (hleast (j + 1)) (by omega)

/-- What steps with `C` keep, a path keeps for as long as its steps have `C`. -/
theorem invariant_from (C : σ → α → Prop) (Inv : σ → Prop) {k : Nat} (hk : Inv (π.state k))
    (hstep : ∀ l s, M.guard l s → C s l → Inv s → Inv (M.update l s)) :
    ∀ j, k ≤ j → (∀ i, k ≤ i → i < j → ∀ l, π.label i = some l → C (π.state i) l) →
      Inv (π.state j) := by
  intro j hkj
  induction j, hkj using Nat.le_induction with
  | base => exact fun _ => hk
  | succ j hkj ih =>
    intro hC
    have hinv := ih fun i hki hij => hC i hki (Nat.lt_succ_of_lt hij)
    cases hl : π.label j with
    | none => rwa [π.stutters j hl]
    | some l =>
      obtain ⟨hg, hnext⟩ := π.fires j l hl
      rw [hnext]
      exact hstep l _ hg (hC j hkj (Nat.lt_succ_self j) l hl) hinv

/-- **Weak fairness.** A step that is ready, and stays so until it is taken, is
taken, if over and over it is taken or not ready. -/
theorem taken_of_ready (ready : σ → Prop) (mine : α → Prop)
    (hfair : ∀ k, ∃ j, k ≤ j ∧ ((∃ l, π.label j = some l ∧ mine l) ∨ ¬ ready (π.state j)))
    (hstay : ∀ l s, M.guard l s → ¬ mine l → ready s → ready (M.update l s)) {k : Nat}
    (hk : ready (π.state k)) :
    ∃ j, k ≤ j ∧ ready (π.state j) ∧ ∃ l, π.label j = some l ∧ mine l := by
  classical
  have hready : ∀ j, k ≤ j → (∀ i, k ≤ i → i < j → ∀ l, π.label i = some l → ¬ mine l) →
      ready (π.state j) := fun j =>
    π.invariant_from (fun _ l => ¬ mine l) ready hk hstay j
  have htaken : ∃ j, k ≤ j ∧ ∃ l, π.label j = some l ∧ mine l := by
    by_contra hnever
    obtain ⟨j, hkj, htaken | hnot⟩ := hfair k
    · exact hnever ⟨j, hkj, htaken⟩
    · exact hnot (hready j hkj fun i hi _ l hl hmine => hnever ⟨i, hi, l, hl, hmine⟩)
  -- the first time it is taken
  obtain ⟨hkj, hlabel⟩ := Nat.find_spec htaken
  refine ⟨Nat.find htaken, hkj, hready _ hkj fun i hki hi l hl hmine => ?_, hlabel⟩
  exact Nat.find_min htaken hi ⟨hki, l, hl, hmine⟩

/-- A variant that no step raises stays what it is from some moment on. -/
theorem eventually_const (variant : σ → Nat) {k : Nat}
    (h : ∀ j, k ≤ j → variant (π.state (j + 1)) ≤ variant (π.state j)) :
    ∃ j, k ≤ j ∧ ∀ i, j ≤ i → variant (π.state i) = variant (π.state j) := by
  obtain ⟨j, hleast⟩ : ∃ j, ∀ i, variant (π.state (k + j)) ≤ variant (π.state (k + i)) :=
    ⟨_, fun i => Function.argmin_le (fun i => variant (π.state (k + i))) i⟩
  refine ⟨k + j, Nat.le_add_right k j, fun i hi => ?_⟩
  have hle : variant (π.state i) ≤ variant (π.state (k + j)) := by
    induction i, hi using Nat.le_induction with
    | base => exact le_refl _
    | succ i hi ih => exact (h i ((Nat.le_add_right k j).trans hi)).trans ih
  obtain ⟨d, rfl⟩ := Nat.exists_eq_add_of_le ((Nat.le_add_right k j).trans hi)
  exact le_antisymm hle (hleast d)

end Path

end Lts
