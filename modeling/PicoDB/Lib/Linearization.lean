import Mathlib.Data.List.Basic
import Mathlib.Data.List.Nodup
import Mathlib.Data.List.Pairwise

/-!
# Linearization — concurrent calls in a sequential order

A history is what the callers of a shared object see: calls and returns, each
with the number of its call. A linearization puts calls one after the other, all
those that have returned and some that have not, so that the object, used
sequentially in that order, gives the answers that were given, and a call that
had returned before another one was made stands before it.

A linearization is built along a run, by three rules: `call` and `ret` for the
two kinds of events, and `point` where a pending call takes its effect.
-/

namespace Linearization

universe u v w x

variable {ι : Type u} {Op : Type v} {Res : Type w} {σ : Type x}

/-- What a caller sees of call `i`. -/
inductive Event (ι : Type u) (Op : Type v) (Res : Type w) where
  | call (i : ι) (op : Op)
  | ret (i : ι) (res : Res)
deriving DecidableEq, Repr

/-- A call with its answer. -/
structure Entry (ι : Type u) (Op : Type v) (Res : Type w) where
  id : ι
  op : Op
  res : Res
deriving DecidableEq, Repr

/-- The call an event makes. -/
def Event.called : Event ι Op Res → Option ι
  | .call i _ => some i
  | .ret _ _ => none

/-- Call `a` has returned before call `b` is made. -/
def Precedes (h : List (Event ι Op Res)) (a b : ι) : Prop :=
  ∃ res op, List.Sublist [.ret a res, .call b op] h

/-- Both calls are made, and neither has returned before the other is made. -/
structure Overlap (h : List (Event ι Op Res)) (a b : ι) : Prop where
  left : a ∈ h.filterMap Event.called
  right : b ∈ h.filterMap Event.called
  notBefore : ¬ Precedes h a b
  notAfter : ¬ Precedes h b a

/-- The entries lead, one after the other, from `start` to a state. -/
inductive Legal (step : Entry ι Op Res → σ → σ → Prop) (start : σ) :
    List (Entry ι Op Res) → σ → Prop where
  | nil : Legal step start [] start
  | concat {l : List (Entry ι Op Res)} {e : Entry ι Op Res} {s s' : σ} :
      Legal step start l s → step e s s' → Legal step start (l ++ [e]) s'

theorem Legal.mono {step step' : Entry ι Op Res → σ → σ → Prop} {start s : σ}
    {l : List (Entry ι Op Res)} (h : Legal step start l s)
    (hstep : ∀ e s s', step e s s' → step' e s s') : Legal step' start l s := by
  induction h with
  | nil => exact .nil
  | concat _ he ih => exact .concat ih (hstep _ _ _ he)

/-- `l` is a sequential order for the history `h`, from `start` to `finish`. -/
structure IsLinearization (step : Entry ι Op Res → σ → σ → Prop) (start : σ)
    (h : List (Event ι Op Res)) (l : List (Entry ι Op Res)) (finish : σ) : Prop where
  legal : Legal step start l finish
  /-- every call has its own number -/
  once : (h.filterMap Event.called).Nodup
  nodup : (l.map Entry.id).Nodup
  called : ∀ e ∈ l, .call e.id e.op ∈ h
  returned : ∀ i res, .ret i res ∈ h → ∃ op, ⟨i, op, res⟩ ∈ l
  order : ∀ a ∈ l, ∀ b ∈ l, Precedes h a.id b.id → List.Sublist [a, b] l

/-! ## What an event adds to a history -/

theorem mem_called {h : List (Event ι Op Res)} {i : ι} {op : Op} (hmem : .call i op ∈ h) :
    i ∈ h.filterMap Event.called :=
  List.mem_filterMap.mpr ⟨_, hmem, rfl⟩

theorem pair_sublist_concat {α : Type u} {x y z : α} {l : List α} :
    List.Sublist [x, y] (l ++ [z]) ↔ List.Sublist [x, y] l ∨ x ∈ l ∧ y = z := by
  constructor
  · intro h
    obtain ⟨l₁, l₂, hpair, h₁, h₂⟩ := List.sublist_append_iff.mp h
    rcases l₁ with _ | ⟨a, _ | ⟨b, l₁⟩⟩
    · -- both would be in a list of one
      rw [List.nil_append] at hpair
      rw [← hpair] at h₂
      exact absurd h₂.length_le (by simp)
    · obtain ⟨rfl, rfl⟩ := List.cons.inj hpair
      have hy := List.mem_singleton.mp (List.singleton_sublist.mp h₂)
      exact Or.inr ⟨List.singleton_sublist.mp h₁, hy⟩
    · obtain ⟨rfl, htail⟩ := List.cons.inj hpair
      obtain ⟨rfl, hnil⟩ := List.cons.inj htail
      obtain ⟨rfl, -⟩ := List.append_eq_nil_iff.mp hnil.symm
      exact Or.inl h₁
  · rintro (h | ⟨hx, rfl⟩)
    · exact h.trans (List.sublist_append_left l [z])
    · exact (List.singleton_sublist.mpr hx).append (List.Sublist.refl [y])

/-- In a list without repetitions one of two comes first. -/
theorem pair_sublist_asymm {α : Type u} {a b : α} {l : List α} (hl : l.Nodup)
    (hab : List.Sublist [a, b] l) (hba : List.Sublist [b, a] l) : False := by
  induction l with
  | nil => cases hab
  | cons c l ih =>
    obtain ⟨hc, hl⟩ := List.nodup_cons.mp hl
    cases hab with
    | cons _ hab =>
      cases hba with
      | cons _ hba => exact ih hl hab hba
      | cons_cons _ hba => exact hc (hab.subset (List.mem_cons_of_mem _ List.mem_cons_self))
    | cons_cons _ hab =>
      cases hba with
      | cons _ hba => exact hc (hba.subset (List.mem_cons_of_mem _ List.mem_cons_self))
      | cons_cons _ hba => exact hc (List.singleton_sublist.mp hba)

theorem precedes_ret {h : List (Event ι Op Res)} {i a b : ι} {res : Res} :
    Precedes (h ++ [.ret i res]) a b ↔ Precedes h a b := by
  simp only [Precedes, pair_sublist_concat]
  refine exists_congr fun _ => exists_congr fun _ => or_iff_left ?_
  rintro ⟨-, heq⟩
  cases heq

theorem precedes_call {h : List (Event ι Op Res)} {i a b : ι} {op : Op} (hb : b ≠ i) :
    Precedes (h ++ [.call i op]) a b ↔ Precedes h a b := by
  simp only [Precedes, pair_sublist_concat]
  refine exists_congr fun _ => exists_congr fun _ => or_iff_left ?_
  rintro ⟨-, heq⟩
  cases heq
  exact hb rfl

theorem Precedes.ret_mem {h : List (Event ι Op Res)} {a b : ι} (hp : Precedes h a b) :
    ∃ res, .ret a res ∈ h := by
  obtain ⟨res, op, hsub⟩ := hp
  exact ⟨res, hsub.subset List.mem_cons_self⟩

theorem Overlap.ret {h : List (Event ι Op Res)} {a b i : ι} {res : Res} (ho : Overlap h a b) :
    Overlap (h ++ [.ret i res]) a b where
  left := by simpa [Event.called] using ho.left
  right := by simpa [Event.called] using ho.right
  notBefore := fun hp => ho.notBefore (precedes_ret.mp hp)
  notAfter := fun hp => ho.notAfter (precedes_ret.mp hp)

theorem Overlap.call {h : List (Event ι Op Res)} {a b i : ι} {op : Op} (ho : Overlap h a b)
    (hi : i ∉ h.filterMap Event.called) : Overlap (h ++ [.call i op]) a b where
  left := by
    rw [List.filterMap_append]
    exact List.mem_append_left _ ho.left
  right := by
    rw [List.filterMap_append]
    exact List.mem_append_left _ ho.right
  notBefore := fun hp => ho.notBefore ((precedes_call fun hb : b = i => hi (hb ▸ ho.right)).mp hp)
  notAfter := fun hp => ho.notAfter ((precedes_call fun ha : a = i => hi (ha ▸ ho.left)).mp hp)

/-! ## The three rules -/

namespace IsLinearization

variable {step : Entry ι Op Res → σ → σ → Prop} {start finish : σ} {h : List (Event ι Op Res)}
  {l : List (Entry ι Op Res)}

theorem mono {step' : Entry ι Op Res → σ → σ → Prop} (hl : IsLinearization step start h l finish)
    (hstep : ∀ e s s', step e s s' → step' e s s') : IsLinearization step' start h l finish :=
  { hl with legal := hl.legal.mono hstep }

theorem nil (step : Entry ι Op Res → σ → σ → Prop) (start : σ) :
    IsLinearization step start [] [] start where
  legal := .nil
  once := List.nodup_nil
  nodup := List.nodup_nil
  called _ he := absurd he List.not_mem_nil
  returned _ _ hret := absurd hret List.not_mem_nil
  order _ ha := absurd ha List.not_mem_nil

/-- A call that is not in the order has not returned. -/
theorem not_returned (hl : IsLinearization step start h l finish) {i : ι}
    (hi : ∀ e ∈ l, e.id ≠ i) (res : Res) : .ret i res ∉ h := by
  intro hret
  obtain ⟨op, hmem⟩ := hl.returned i res hret
  exact hi _ hmem rfl

/-- A call is made once, for one operation. -/
theorem op_unique (hl : IsLinearization step start h l finish) {i : ι} {op op' : Op}
    (hop : .call i op ∈ h) (hop' : .call i op' ∈ h) : op = op' := by
  let R (x y : Event ι Op Res) : Prop :=
    ∀ a, x.called = some a → ∀ b, y.called = some b → a ≠ b
  have hsymm : Std.Symm R := ⟨fun _ _ hxy a ha b hb heq => hxy b hb a ha heq.symm⟩
  have hpairs : h.Pairwise R := List.pairwise_filterMap.mp hl.once
  by_contra hne
  have hdiffer : (.call i op : Event ι Op Res) ≠ .call i op' := fun heq => hne (by cases heq; rfl)
  exact hpairs.forall hop hop' hdiffer i rfl i rfl rfl

/-- A call stands in the order once, with one answer. -/
theorem entry_unique (hl : IsLinearization step start h l finish) {a b : Entry ι Op Res}
    (ha : a ∈ l) (hb : b ∈ l) (heq : a.id = b.id) : a = b :=
  List.inj_on_of_nodup_map hl.nodup ha hb heq

/-- Who comes later in the order did not return before the other was made. -/
theorem not_precedes (hl : IsLinearization step start h l finish) {a b : Entry ι Op Res}
    (hab : List.Sublist [a, b] l) : ¬ Precedes h b.id a.id := by
  intro hp
  have ha : a ∈ l := hab.subset List.mem_cons_self
  have hb : b ∈ l := hab.subset (List.mem_cons_of_mem _ List.mem_cons_self)
  exact pair_sublist_asymm (.of_map _ hl.nodup) hab (hl.order b hb a ha hp)

/-- A new call. -/
theorem call (hl : IsLinearization step start h l finish) {i : ι} (op : Op)
    (hi : i ∉ h.filterMap Event.called) :
    IsLinearization step start (h ++ [.call i op]) l finish where
  legal := hl.legal
  once := by
    rw [List.filterMap_append]
    exact hl.once.append (List.nodup_singleton i)
      (List.disjoint_singleton.mpr hi)
  nodup := hl.nodup
  called e he := List.mem_append_left _ (hl.called e he)
  returned j res hret := by
    rcases List.mem_append.mp hret with hret | hret
    · exact hl.returned j res hret
    · cases List.mem_singleton.mp hret
  order a ha b hb hp := by
    have hne : b.id ≠ i := fun heq => hi (heq ▸ mem_called (hl.called b hb))
    exact hl.order a ha b hb ((precedes_call hne).mp hp)

/-- A pending call takes its effect. -/
theorem point (hl : IsLinearization step start h l finish) {e : Entry ι Op Res} {finish' : σ}
    (hcall : .call e.id e.op ∈ h) (hnew : ∀ x ∈ l, x.id ≠ e.id) (hstep : step e finish finish') :
    IsLinearization step start h (l ++ [e]) finish' where
  legal := .concat hl.legal hstep
  once := hl.once
  nodup := by
    rw [List.map_append]
    refine hl.nodup.append (List.nodup_singleton e.id) (List.disjoint_singleton.mpr fun hmem => ?_)
    obtain ⟨x, hx, heq⟩ := List.mem_map.mp hmem
    exact hnew x hx heq
  called x hx := by
    rcases List.mem_append.mp hx with hx | hx
    · exact hl.called x hx
    · rw [List.mem_singleton.mp hx]
      exact hcall
  returned i res hret := by
    obtain ⟨op, hmem⟩ := hl.returned i res hret
    exact ⟨op, List.mem_append_left _ hmem⟩
  order a ha b hb hp := by
    rw [pair_sublist_concat]
    rcases List.mem_append.mp ha with ha | ha
    · rcases List.mem_append.mp hb with hb | hb
      · exact Or.inl (hl.order a ha b hb hp)
      · exact Or.inr ⟨ha, List.mem_singleton.mp hb⟩
    · -- `e` has not returned
      rw [List.mem_singleton.mp ha] at hp
      obtain ⟨res, hret⟩ := hp.ret_mem
      exact absurd hret (hl.not_returned hnew res)

/-- A call that has taken its effect returns. -/
theorem ret (hl : IsLinearization step start h l finish) {e : Entry ι Op Res} (he : e ∈ l) :
    IsLinearization step start (h ++ [.ret e.id e.res]) l finish where
  legal := hl.legal
  once := by
    rw [List.filterMap_append]
    exact (List.append_nil (h.filterMap Event.called)).symm ▸ hl.once
  nodup := hl.nodup
  called x hx := List.mem_append_left _ (hl.called x hx)
  returned i res hret := by
    rcases List.mem_append.mp hret with hret | hret
    · exact hl.returned i res hret
    · cases List.mem_singleton.mp hret
      exact ⟨e.op, he⟩
  order a ha b hb hp := hl.order a ha b hb (precedes_ret.mp hp)

end IsLinearization

end Linearization
