import Mathlib.Logic.Function.Basic
import PicoDB.Lib.Lts

/-!
# PicoDB.OffsetManager — `OffsetManager.h`

A manager has the name of its file and a mutex, and `offset` is one for all
managers: it is static. Any number of threads call `setEndOfFileOffset` and
`getEndOfFileOffset` on any managers; taking the mutex, the load, the store and
giving the mutex back are one step each. Between them the files change size.

`lastSet` is what the managers are for, an offset for every file, and nothing
reads it. `offsets_independent_iff` says in which runs the managers are true to
it.
-/

namespace PicoDB.OffsetManager

open Lts

/-! ## State -/

/-- A call of `getEndOfFileOffset` that has loaded the offset. -/
structure Get (M : Type) where
  manager : M
  /-- the local `x`, in the end what is returned -/
  x : Int
  /-- history: what was last set for the file when the offset was loaded -/
  last : Option Int
  /-- history: the sizes of the file, at the load and where it is measured -/
  sizes : List Nat
deriving DecidableEq, Repr

/-- The call has the offset last set for its file, or the size of the file if
none was. -/
def Get.Right {M : Type} (g : Get M) : Prop :=
  match g.last with
  | some y => g.x = y
  | none => ∃ size ∈ g.sizes, g.x = size

/-- Where a thread is. -/
inductive Pc (M : Type) where
  | idle
  /-- in `setEndOfFileOffset`, about to take `offsetMutex` -/
  | lockingSet (m : M) (x : Int)
  | storing (m : M) (x : Int)
  | unlockingSet (m : M)
  /-- in `getEndOfFileOffset`, about to take `offsetMutex` -/
  | lockingGet (m : M)
  | loading (m : M)
  /-- at `x == -1` -/
  | testing (g : Get M)
  /-- at `assert(x >= 0)` -/
  | checking (g : Get M)
  | returning (g : Get M)
deriving DecidableEq, Repr

/-- The managers `M` of files `F`, and the threads `T`. -/
structure State (M F T : Type) where
  /-- `static std::atomic<offsetType> offset` -/
  offset : Int := -1
  /-- `offsetMutex` of each manager -/
  locked : M → Bool := fun _ => false
  threads : T → Pc M := fun _ => .idle
  /-- an assertion has failed -/
  aborted : Bool := false
  /-- the size of each file -/
  sizes : F → Nat
  /-- history: what was last set through a manager of the file -/
  lastSet : F → Option Int := fun _ => none
  /-- history: the calls that came back -/
  answers : List (Get M) := []

/-! ## Steps -/

section Steps

variable {M F T : Type}

/-- `getInitialOffset`, which measures the file; its body is commented out. -/
def getInitialOffset (filename : F) (s : State M F T) : Int := s.sizes filename

/-- Thread `t` goes to `pc`. -/
def setThread [DecidableEq T] (t : T) (pc : Pc M) (s : State M F T) : State M F T :=
  { s with threads := Function.update s.threads t pc }

/-- The mutex of `m` is taken or given back. -/
def setLocked [DecidableEq M] (m : M) (locked : Bool) (s : State M F T) : State M F T :=
  { s with locked := Function.update s.locked m locked }

/-- A step of thread `t` in a call. -/
def threadStep [DecidableEq M] [DecidableEq F] [DecidableEq T] (filename : M → F) (t : T)
    (s : State M F T) : State M F T :=
  match s.threads t with
  | .idle => s
  | .lockingSet m x => setThread t (.storing m x) (setLocked m true s)
  | .storing m x =>
    setThread t (.unlockingSet m)
      { s with offset := x, lastSet := Function.update s.lastSet (filename m) (some x) }
  | .unlockingSet m => setThread t .idle (setLocked m false s)
  | .lockingGet m => setThread t (.loading m) (setLocked m true s)
  | .loading m =>
    let f := filename m
    setThread t (.testing ⟨m, s.offset, s.lastSet f, [s.sizes f]⟩) s
  | .testing g =>
    let f := filename g.manager
    let x := if g.x = -1 then getInitialOffset f s else g.x
    setThread t (.checking { g with x := x, sizes := g.sizes ++ [s.sizes f] }) s
  | .checking g =>
    if 0 ≤ g.x then setThread t (.returning g) s else { s with aborted := true }
  | .returning g =>
    setThread t .idle (setLocked g.manager false { s with answers := s.answers ++ [g] })

/-- Thread `t` can go on: it is in a call, and a mutex it takes is free. -/
def ready (t : T) (s : State M F T) : Bool :=
  match s.threads t with
  | .idle => false
  | .lockingSet m _ => !s.locked m
  | .lockingGet m => !s.locked m
  | _ => true

end Steps

/-- What can happen next. -/
inductive Label (M F T : Type) where
  | setEndOfFileOffset (t : T) (m : M) (x : Int)
  | getEndOfFileOffset (t : T) (m : M)
  | thread (t : T)
  /-- somebody writes the file -/
  | resize (f : F) (size : Nat)
deriving Repr

/-- The managers at work. -/
def managers {M F : Type} (filename : M → F) (T : Type) [DecidableEq M] [DecidableEq F]
    [DecidableEq T] : System (State M F T) (Label M F T) where
  Init s := s = { sizes := s.sizes }
  guard
    | .setEndOfFileOffset t _ _, s => s.aborted = false ∧ s.threads t = .idle
    | .getEndOfFileOffset t _, s => s.aborted = false ∧ s.threads t = .idle
    | .thread t, s => s.aborted = false ∧ ready t s = true
    | .resize _ _, s => s.aborted = false
  update
    -- the assertion comes before the mutex
    | .setEndOfFileOffset t m x, s =>
      if 0 ≤ x then setThread t (.lockingSet m x) s else { s with aborted := true }
    | .getEndOfFileOffset t m, s => setThread t (.lockingGet m) s
    | .thread t, s => threadStep filename t s
    | .resize f size, s => { s with sizes := Function.update s.sizes f size }

variable {M F T : Type}

instance [DecidableEq M] [DecidableEq F] [DecidableEq T] (filename : M → F) (l : Label M F T)
    (s : State M F T) : Decidable ((managers filename T).guard l s) :=
  match l with
  | .setEndOfFileOffset t _ _ =>
    inferInstanceAs (Decidable (s.aborted = false ∧ s.threads t = .idle))
  | .getEndOfFileOffset t _ =>
    inferInstanceAs (Decidable (s.aborted = false ∧ s.threads t = .idle))
  | .thread t => inferInstanceAs (Decidable (s.aborted = false ∧ ready t s = true))
  | .resize _ _ => inferInstanceAs (Decidable (s.aborted = false))

/-! ## Independence -/

/-- The end of a file: the offset last set through a manager of it, or its size
if none was. -/
def endOf (f : F) (s : State M F T) : Int := (s.lastSet f).getD (getInitialOffset f s)

/-- What a call of `getEndOfFileOffset` on a manager of `f` returns that finds
the state as it is. -/
def answer (f : F) (s : State M F T) : Int :=
  if s.offset = -1 then getInitialOffset f s else s.offset

theorem answer_congr {s s' : State M F T} (ho : s'.offset = s.offset) (hz : s'.sizes = s.sizes)
    (f : F) : answer f s' = answer f s := by
  simp [answer, getInitialOffset, ho, hz]

theorem endOf_congr {s s' : State M F T} (hl : s'.lastSet = s.lastSet) (hz : s'.sizes = s.sizes)
    (f : F) : endOf f s' = endOf f s := by
  simp [endOf, getInitialOffset, hl, hz]

/-- The step stores `x` through a manager of `f`. -/
def Stores (filename : M → F) (s : State M F T) (l : Label M F T) (f : F) (x : Int) : Prop :=
  ∃ t m, l = .thread t ∧ s.threads t = .storing m x ∧ filename m = f

theorem stores_iff {filename : M → F} {s : State M F T} {t : T} {m : M} {x : Int}
    (hpc : s.threads t = .storing m x) (f : F) (y : Int) :
    Stores filename s (.thread t) f y ↔ f = filename m ∧ y = x := by
  constructor
  · rintro ⟨t', m', ht, hpc', rfl⟩
    cases ht
    rw [hpc] at hpc'
    cases hpc'
    exact ⟨rfl, rfl⟩
  · rintro ⟨rfl, rfl⟩
    exact ⟨t, m, rfl, hpc, rfl⟩

/-- A step stores, resizes or does neither. -/
theorem step_cases (filename : M → F) (s : State M F T) (l : Label M F T) :
    (∃ t m x, l = .thread t ∧ s.threads t = .storing m x) ∨ (∃ f size, l = .resize f size) ∨
      (∀ f x, ¬Stores filename s l f x) ∧ ∀ f size, l ≠ .resize f size := by
  by_cases hstore : ∃ t m x, l = .thread t ∧ s.threads t = .storing m x
  · exact .inl hstore
  · by_cases hresize : ∃ f size, l = .resize f size
    · exact .inr (.inl hresize)
    · refine .inr (.inr ⟨?_, ?_⟩)
      · rintro f x ⟨t, m, hl, hpc, -⟩
        exact hstore ⟨t, m, x, hl, hpc⟩
      · intro f size hl
        exact hresize ⟨f, size, hl⟩

/-- The step is none that may change the answer for `f`. -/
def Spares (filename : M → F) (s : State M F T) (l : Label M F T) (f : F) : Prop :=
  (∀ x, ¬Stores filename s l f x) ∧ ∀ size, l ≠ .resize f size

/-- A step of a run that keeps the files apart: it leaves the answer for every
file right, and changes that of no other file. -/
structure KeepsApart (filename : M → F) (s : State M F T) (l : Label M F T)
    (s' : State M F T) : Prop where
  right : ∀ m, answer (filename m) s' = endOf (filename m) s'
  frame : ∀ m, Spares filename s l (filename m) →
    answer (filename m) s' = answer (filename m) s

/-- What was stored is the end of every other file with a manager, and stays so
for as long as nothing is set for that file. -/
structure StoresCommonEnd (filename : M → F) (s : State M F T) (l : Label M F T) : Prop where
  stores : ∀ f x, Stores filename s l f x → ∀ m, filename m ≠ f → x = endOf (filename m) s
  resizes : ∀ m size, l = .resize (filename m) size →
    s.offset ≠ -1 → s.lastSet (filename m) = none → s.offset = size

/-! ## Threads in order -/

/-- Nothing negative is on its way to the offset, and a call that has loaded
has what it needs. -/
def Pc.Ok : Pc M → Prop
  | .lockingSet _ x => 0 ≤ x
  | .storing _ x => 0 ≤ x
  | .testing g => if g.x = -1 then g.last = none else g.Right
  | .checking g => g.Right
  | .returning g => g.Right
  | _ => True

/-- The state of managers that have kept the files apart. -/
structure Apart (filename : M → F) (s : State M F T) : Prop where
  right : ∀ m, answer (filename m) s = endOf (filename m) s
  unset : s.offset = -1 → ∀ f, s.lastSet f = none
  positions : ∀ t, (s.threads t).Ok
  answers : ∀ g ∈ s.answers, g.Right

/-- What is stored is not negative. -/
theorem Apart.ne_of_storing {filename : M → F} {s : State M F T} (hs : Apart filename s) {t : T}
    {m : M} {x : Int} (hpc : s.threads t = .storing m x) : x ≠ -1 := by
  have hx : 0 ≤ x := by simpa [hpc, Pc.Ok] using hs.positions t
  omega

theorem Get.Right.append {g : Get M} (h : g.Right) (sizes : List Nat) :
    Get.Right { g with sizes := g.sizes ++ sizes } := by
  rcases g with ⟨m, x, _ | y, sizes'⟩
  · rcases h with ⟨size, hmem, hx⟩
    exact ⟨size, List.mem_append_left _ hmem, hx⟩
  · exact h

/-- What a call loads is what it needs. -/
theorem ok_load {filename : M → F} {s : State M F T} {m : M} (hs : Apart filename s) :
    Pc.Ok (.testing ⟨m, s.offset, s.lastSet (filename m), [s.sizes (filename m)]⟩) := by
  have hright := hs.right m
  by_cases hoff : s.offset = -1
  · simp [Pc.Ok, hoff, hs.unset hoff]
  · rw [answer, if_neg hoff] at hright
    cases hlast : s.lastSet (filename m) with
    | none => simp_all [Pc.Ok, Get.Right, endOf, getInitialOffset]
    | some y => simp_all [Pc.Ok, Get.Right, endOf]

/-- The measured size makes up for an offset that was never set. -/
theorem ok_measure {g : Get M} {size : Nat} (h : Pc.Ok (.testing g)) :
    Pc.Ok (.checking
      { g with x := if g.x = -1 then (size : Int) else g.x, sizes := g.sizes ++ [size] }) := by
  by_cases hx : g.x = -1
  · have hlast : g.last = none := by simpa [Pc.Ok, hx] using h
    simp [Pc.Ok, Get.Right, hx, hlast]
  · have hright : g.Right := by simpa [Pc.Ok, hx] using h
    simpa [Pc.Ok, hx] using hright.append [size]

theorem ok_setThread [DecidableEq T] {s : State M F T} {t : T} {pc : Pc M} (hpc : pc.Ok)
    (h : ∀ u, (s.threads u).Ok) (u : T) : ((setThread t pc s).threads u).Ok := by
  by_cases hu : u = t
  · subst hu
    simpa [setThread] using hpc
  · simpa [setThread, hu] using h u

variable [DecidableEq M] [DecidableEq F] [DecidableEq T]

/-- The ends of different files are independent: a call returns the end of its
file, also one that would be made after any step, and no call changes the
answer for another file. -/
structure Independent (filename : M → F) (tr : List (State M F T × Label M F T))
    (s : State M F T) : Prop where
  answers : ∀ g ∈ s.answers, g.Right
  steps : ∀ p ∈ tr, KeepsApart filename p.1 p.2 ((managers filename T).update p.2 p.1)

/-! ## What a step does -/

section Step

variable {filename : M → F} {s : State M F T}

/-- Only a step that stores changes the offset or what was last set. -/
theorem threadStep_frame {t : T} (h : ∀ m x, s.threads t ≠ .storing m x) :
    (threadStep filename t s).offset = s.offset ∧
      (threadStep filename t s).lastSet = s.lastSet ∧
      (threadStep filename t s).sizes = s.sizes := by
  cases hpc : s.threads t with
  | storing m x => exact absurd hpc (h m x)
  | checking g =>
    simp only [threadStep, hpc]
    split <;> simp [setThread]
  | _ => simp [threadStep, hpc, setThread, setLocked]

/-- A step that neither stores nor resizes. -/
theorem update_frame {l : Label M F T} (hs : ∀ f x, ¬Stores filename s l f x)
    (hr : ∀ f size, l ≠ .resize f size) :
    ((managers filename T).update l s).offset = s.offset ∧
      ((managers filename T).update l s).lastSet = s.lastSet ∧
      ((managers filename T).update l s).sizes = s.sizes := by
  cases l with
  | setEndOfFileOffset t m x =>
    simp only [managers]
    split <;> simp [setThread]
  | getEndOfFileOffset t m => simp [managers, setThread]
  | thread t => exact threadStep_frame fun m x h => hs (filename m) x ⟨t, m, rfl, h, rfl⟩
  | resize f size => exact absurd rfl (hr f size)

variable (filename) in
/-- A step that stores. -/
theorem update_storing {t : T} {m : M} {x : Int} (hpc : s.threads t = .storing m x) :
    ((managers filename T).update (.thread t) s).offset = x ∧
      ((managers filename T).update (.thread t) s).lastSet =
        Function.update s.lastSet (filename m) (some x) ∧
      ((managers filename T).update (.thread t) s).sizes = s.sizes := by
  simp [managers, threadStep, hpc, setThread]

variable (filename) in
theorem answer_storing {t : T} {m : M} {x : Int} (hpc : s.threads t = .storing m x)
    (hx : x ≠ -1) (f : F) : answer f ((managers filename T).update (.thread t) s) = x := by
  rw [answer, (update_storing filename hpc).1, if_neg hx]

theorem endOf_storing {t : T} {m : M} {x : Int} (hpc : s.threads t = .storing m x) (f : F) :
    endOf f ((managers filename T).update (.thread t) s) =
      if f = filename m then x else endOf f s := by
  obtain ⟨-, hl, hz⟩ := update_storing filename hpc
  simp only [endOf, getInitialOffset, hl, hz, Function.update_apply]
  split <;> rfl

end Step

/-! ## The invariant -/

section Invariant

variable {filename : M → F} {s : State M F T}

theorem init_apart (h : (managers filename T).Init s) : Apart filename s := by
  have hs : s = { sizes := s.sizes } := h
  rw [hs]
  exact ⟨fun m => by simp [answer, endOf], fun _ _ => rfl, fun _ => trivial, by simp⟩

theorem threadStep_other {t u : T} (hu : u ≠ t) :
    (threadStep filename t s).threads u = s.threads u := by
  cases hpc : s.threads t with
  | checking g =>
    simp only [threadStep, hpc]
    split <;> simp [setThread, hu]
  | _ => simp [threadStep, hpc, setThread, setLocked, hu]

/-- A thread that goes on has what it needs. -/
theorem ok_threadStep (t : T) (hs : Apart filename s) :
    ((threadStep filename t s).threads t).Ok := by
  have hok := hs.positions t
  cases hpc : s.threads t with
  | lockingSet m x =>
    have hx : 0 ≤ x := by simpa [hpc, Pc.Ok] using hok
    simpa [threadStep, hpc, setThread, Pc.Ok] using hx
  | loading m => simpa [threadStep, hpc, setThread] using ok_load (m := m) hs
  | testing g =>
    rw [hpc] at hok
    simpa [threadStep, hpc, setThread, getInitialOffset] using ok_measure hok
  | checking g =>
    have hg : g.Right := by simpa [hpc, Pc.Ok] using hok
    simp only [threadStep, hpc]
    split <;> simp [setThread, hpc, Pc.Ok, hg]
  | _ => simp [threadStep, hpc, setThread, Pc.Ok]

theorem positions_update (l : Label M F T) (hs : Apart filename s) (u : T) :
    (((managers filename T).update l s).threads u).Ok := by
  cases l with
  | setEndOfFileOffset t m x =>
    simp only [managers]
    split
    · next hx =>
      have hpc : Pc.Ok (.lockingSet m x) := hx
      exact ok_setThread hpc hs.positions u
    · exact hs.positions u
  | getEndOfFileOffset t m =>
    have hpc : Pc.Ok (.lockingGet m) := trivial
    exact ok_setThread hpc hs.positions u
  | thread t =>
    by_cases hu : u = t
    · subst hu
      exact ok_threadStep u hs
    · have hsame : (threadStep filename t s).threads u = s.threads u := threadStep_other hu
      simpa [managers, hsame] using hs.positions u
  | resize f size => exact hs.positions u

/-- A call that comes back had what it needed. -/
theorem answers_update (l : Label M F T) (hs : Apart filename s) :
    ∀ g ∈ ((managers filename T).update l s).answers, g.Right := by
  have hold := hs.answers
  cases l with
  | setEndOfFileOffset t m x =>
    simp only [managers]
    split <;> exact hold
  | getEndOfFileOffset t m => exact hold
  | resize f size => exact hold
  | thread t =>
    have hok := hs.positions t
    cases hpc : s.threads t with
    | checking g =>
      simp only [managers, threadStep, hpc]
      split <;> exact hold
    | returning g =>
      have hg : g.Right := by simpa [hpc, Pc.Ok] using hok
      simp only [managers, threadStep, hpc, setThread, setLocked, List.forall_mem_append,
        List.forall_mem_singleton]
      exact ⟨hold, hg⟩
    | _ => simpa [managers, threadStep, hpc, setThread, setLocked] using hold

theorem unset_update {l : Label M F T} (hs : Apart filename s)
    (hoff : ((managers filename T).update l s).offset = -1) (f : F) :
    ((managers filename T).update l s).lastSet f = none := by
  rcases step_cases filename s l with ⟨t, m, x, rfl, hpc⟩ | ⟨f', size, rfl⟩ | ⟨hstore, hresize⟩
  · rw [(update_storing filename hpc).1] at hoff
    exact absurd hoff (hs.ne_of_storing hpc)
  · exact hs.unset hoff f
  · obtain ⟨ho, hl, -⟩ := update_frame (T := T) hstore hresize
    rw [hl]
    exact hs.unset (ho ▸ hoff) f

/-! ### The condition says what a step keeps -/

theorem keepsApart_store_iff {t : T} {m : M} {x : Int} (hs : Apart filename s)
    (hpc : s.threads t = .storing m x) :
    StoresCommonEnd filename s (.thread t) ↔
      KeepsApart filename s (.thread t) ((managers filename T).update (.thread t) s) := by
  have hanswer := answer_storing filename hpc (hs.ne_of_storing hpc)
  constructor
  · intro hC
    have hend : ∀ m', filename m' ≠ filename m → x = endOf (filename m') s :=
      hC.stores _ x ((stores_iff hpc _ x).mpr ⟨rfl, rfl⟩)
    constructor
    · intro m'
      rw [hanswer, endOf_storing hpc]
      split
      · rfl
      · rename_i hm
        exact hend m' hm
    · intro m' hspares
      have hm : filename m' ≠ filename m := fun h =>
        hspares.1 x ((stores_iff hpc _ x).mpr ⟨h, rfl⟩)
      rw [hanswer, hs.right m']
      exact hend m' hm
  · intro hkeeps
    constructor
    · intro f y hstore m' hm
      obtain ⟨rfl, rfl⟩ := (stores_iff hpc f y).mp hstore
      have hright := hkeeps.right m'
      rwa [hanswer, endOf_storing hpc, if_neg hm] at hright
    · intro m' size hl
      cases hl

theorem keepsApart_resize_iff {f : F} {size : Nat} (hs : Apart filename s) :
    StoresCommonEnd filename s (.resize f size) ↔
      KeepsApart filename s (.resize f size) ((managers filename T).update (.resize f size) s) := by
  constructor
  · intro hC
    constructor
    · intro m
      have hright := hs.right m
      by_cases hm : filename m = f
      · subst hm
        by_cases hoff : s.offset = -1
        · have hnone := hs.unset hoff (filename m)
          simp [managers, answer, endOf, getInitialOffset, hoff, hnone]
        · cases hlast : s.lastSet (filename m) with
          | none =>
            have hsize := hC.resizes m size rfl hoff hlast
            simp [managers, answer, endOf, getInitialOffset, hlast, hsize]
          | some y =>
            have hy : s.offset = y := by simpa [answer, endOf, hoff, hlast] using hright
            simp [managers, answer, endOf, hoff, hlast, ← hy]
      · simpa [managers, answer, endOf, getInitialOffset, hm] using hright
    · intro m hspares
      have hm : filename m ≠ f := fun h => hspares.2 size (by rw [h])
      simp [managers, answer, getInitialOffset, hm]
  · intro hkeeps
    constructor
    · rintro f' x ⟨t, m, hl, -⟩
      cases hl
    · intro m size' hl hoff hlast
      cases hl
      have hright := hkeeps.right m
      simpa [managers, answer, endOf, getInitialOffset, hoff, hlast] using hright

theorem keepsApart_iff (l : Label M F T) (hs : Apart filename s) :
    StoresCommonEnd filename s l ↔
      KeepsApart filename s l ((managers filename T).update l s) := by
  rcases step_cases filename s l with ⟨t, m, x, rfl, hpc⟩ | ⟨f, size, rfl⟩ | ⟨hstore, hresize⟩
  · exact keepsApart_store_iff hs hpc
  · exact keepsApart_resize_iff hs
  · -- neither side has anything to say
    obtain ⟨ho, hl, hz⟩ := update_frame (T := T) hstore hresize
    constructor
    · intro _
      constructor
      · intro m
        rw [answer_congr ho hz, endOf_congr hl hz]
        exact hs.right m
      · intro m _
        exact answer_congr ho hz _
    · intro _
      exact ⟨fun f x h => absurd h (hstore f x), fun m size h => absurd h (hresize _ size)⟩

theorem step_apart {l : Label M F T} (hC : StoresCommonEnd filename s l)
    (hs : Apart filename s) : Apart filename ((managers filename T).update l s) where
  right := ((keepsApart_iff l hs).mp hC).right
  unset := unset_update hs
  positions := positions_update l hs
  answers := answers_update l hs

end Invariant

/-! ## Managers of one file -/

section OneFile

variable {filename : M → F}

/-- The offset was set through some manager. -/
theorem offset_was_set {tr : List (State M F T × Label M F T)} {s : State M F T}
    (h : Run (managers filename T) tr s) :
    s.offset ≠ -1 → ∃ m, s.lastSet (filename m) = some s.offset := by
  refine run_invariant (fun s : State M F T =>
    s.offset ≠ -1 → ∃ m, s.lastSet (filename m) = some s.offset) ?_ ?_ h
  · intro s h0 hoff
    have hs : s = { sizes := s.sizes } := h0
    rw [hs] at hoff
    exact absurd rfl hoff
  · intro l s _ hset hoff
    rcases step_cases filename s l with ⟨t, m, x, rfl, hpc⟩ | ⟨f, size, rfl⟩ | ⟨hs, hr⟩
    · obtain ⟨ho, hl, -⟩ := update_storing filename hpc
      exact ⟨m, by rw [ho, hl, Function.update_self]⟩
    · exact hset hoff
    · obtain ⟨ho, hl, -⟩ := update_frame (T := T) hs hr
      rw [hl, ho]
      exact hset (ho ▸ hoff)

/-- Managers that are all for one file store no offset but its end. -/
theorem storesCommonEnd_of_one_file (hone : ∀ m m', filename m = filename m')
    {tr : List (State M F T × Label M F T)} {s : State M F T}
    (h : Run (managers filename T) tr s) : ∀ p ∈ tr, StoresCommonEnd filename p.1 p.2 := by
  induction h with
  | start _ => simp
  | @next tr s l hr _ ih =>
    rw [List.forall_mem_append, List.forall_mem_singleton]
    refine ⟨ih, ?_, ?_⟩
    · rintro f x ⟨t, m', -, -, rfl⟩ m hm
      exact absurd (hone m m') hm
    · intro m size _ hoff hlast
      obtain ⟨m', hm'⟩ := offset_was_set hr hoff
      rw [hone m m', hm'] at hlast
      cases hlast

end OneFile

/-! ## Main result -/

/-- The ends of different files are independent exactly as long as every offset
that is stored is the end of all of them. -/
theorem offsets_independent_iff {filename : M → F} {tr : List (State M F T × Label M F T)}
    {s : State M F T} (h : Run (managers filename T) tr s) :
    Independent filename tr s ↔ ∀ p ∈ tr, StoresCommonEnd filename p.1 p.2 := by
  have hiff : (∀ p ∈ tr, StoresCommonEnd filename p.1 p.2) ↔
      ∀ p ∈ tr, KeepsApart filename p.1 p.2 ((managers filename T).update p.2 p.1) :=
    run_forall_iff (Apart filename) (StoresCommonEnd filename)
      (fun s l => KeepsApart filename s l ((managers filename T).update l s))
      (fun _ h0 => init_apart h0) (fun _ _ _ hC hs => step_apart hC hs)
      (fun l _ _ hs => keepsApart_iff l hs) h
  constructor
  · intro hind
    exact hiff.mpr hind.steps
  · intro hC
    have hs : Apart filename s :=
      run_invariant_of (StoresCommonEnd filename) (Apart filename)
        (fun _ h0 => init_apart h0) (fun _ _ _ hC hs => step_apart hC hs) h hC
    exact ⟨hs.answers, hiff.mp hC⟩

/-- One thread sets an offset through one manager and asks another. -/
def setThenGet : List (Label Bool F Unit) :=
  [.setEndOfFileOffset () false 7, .thread (), .thread (), .thread (),
    .getEndOfFileOffset () true, .thread (), .thread (), .thread (), .thread (), .thread ()]

/-- Two managers of one file. -/
theorem offsets_of_one_file :
    ∃ (tr : List (State Bool Unit Unit × Label Bool Unit Unit)) (s : State Bool Unit Unit),
      Run (managers (fun _ => ()) Unit) tr s ∧ s.answers = [⟨true, 7, some 7, [50, 50]⟩] ∧
        Independent (fun _ => ()) tr s := by
  have hfires : Fires (managers (fun _ : Bool => ()) Unit) setThenGet
      { sizes := fun _ => 50 } := by decide
  have hrun := run_of_fires rfl hfires
  refine ⟨_, _, hrun, by decide, ?_⟩
  exact (offsets_independent_iff hrun).mpr (storesCommonEnd_of_one_file (fun _ _ => rfl) hrun)

/-- Two managers of a file each: the second returns what was set through the
first, and not the size of its file. -/
theorem offset_of_other_file :
    ∃ (tr : List (State Bool Bool Unit × Label Bool Bool Unit)) (s : State Bool Bool Unit),
      Run (managers id Unit) tr s ∧ s.answers = [⟨true, 7, none, [50, 50]⟩] ∧
        ¬Independent id tr s := by
  have hfires : Fires (managers (id : Bool → Bool) Unit) setThenGet
      { sizes := fun _ => 50 } := by decide
  have hrun := run_of_fires rfl hfires
  have hanswers : (after (managers (id : Bool → Bool) Unit) setThenGet
      { sizes := fun _ => 50 }).answers = [⟨true, 7, none, [50, 50]⟩] := by decide
  refine ⟨_, _, hrun, hanswers, ?_⟩
  intro hind
  have hright := hind.answers ⟨true, 7, none, [50, 50]⟩ (by rw [hanswers]; simp)
  simp [Get.Right] at hright

end PicoDB.OffsetManager
