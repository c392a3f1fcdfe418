import Mathlib.Data.List.Infix

/-!
# Marker — runs of one symbol inside a text

A format that announces something by a run of `k` copies of a marker symbol
has to know where such a run can occur. Two facts settle it:

* `replicate_infix_sep`: a run never crosses a symbol other than the marker, so
  a text assembled with separators has a run exactly when a part has one;
* `replicate_infix_flatMap`: a symbol-wise encoding that keeps the marker and
  writes every other symbol without it neither makes nor breaks a run.
-/

namespace Marker

universe u v
variable {α : Type u} {β : Type v}

/-- A run of the marker does not reach over another symbol. -/
theorem replicate_infix_sep {a x : α} {k : Nat} (hx : x ≠ a) (l r : List α) :
    List.replicate k a <:+: l ++ x :: r ↔
      List.replicate k a <:+: l ∨ List.replicate k a <:+: r := by
  constructor
  · rintro ⟨s, t, h⟩
    have hmem : ∀ u v : List α, List.replicate k a ≠ u ++ x :: v := by
      intro u v he
      have hx' : x ∈ List.replicate k a := by rw [he]; simp
      exact hx (List.eq_of_mem_replicate hx')
    rcases List.append_eq_append_iff.mp h with ⟨w, hl, -⟩ | ⟨w, hsw, hw⟩
    · -- the run ends before the separator
      exact Or.inl ⟨s, w, hl.symm⟩
    · cases w with
      | nil => exact Or.inl ⟨s, [], by simpa using hsw⟩
      | cons y w =>
        rw [List.cons_append, List.cons.injEq] at hw
        rcases List.append_eq_append_iff.mp hsw with ⟨v, hv, hrep⟩ | ⟨v, hv, hrep⟩
        · -- it would start before the separator and end after it
          exact absurd (hw.1 ▸ hrep) (hmem v w)
        · cases v with
          | nil => exact absurd (by simpa [hw.1] using hrep.symm) (hmem [] w)
          | cons z v =>
            rw [List.cons_append, List.cons.injEq] at hrep
            exact Or.inr ⟨v, t, by rw [hw.2, hrep.2]⟩
  · rintro (h | h)
    · exact h.trans (List.prefix_append l (x :: r)).isInfix
    · exact h.trans ⟨l ++ [x], [], by simp⟩

/-- A run lies on one side of any non-empty stretch without the marker. -/
theorem replicate_infix_between {a : α} {k : Nat} (hk : 0 < k) (l sep r : List α)
    (hsep : a ∉ sep) (hne : sep ≠ []) :
    List.replicate k a <:+: l ++ sep ++ r ↔
      List.replicate k a <:+: l ∨ List.replicate k a <:+: r := by
  induction sep generalizing l with
  | nil => exact absurd rfl hne
  | cons x sep ih =>
    have hx : x ≠ a := fun h => hsep (h ▸ List.mem_cons_self)
    rw [List.append_assoc, List.cons_append, replicate_infix_sep hx]
    cases sep with
    | nil => simp
    | cons y sep =>
      have hy : a ∉ y :: sep := fun h => hsep (List.mem_cons_of_mem _ h)
      have hnil : ¬ List.replicate k a <:+: ([] : List α) := by
        rw [List.infix_nil, List.replicate_eq_nil_iff]
        omega
      have ih' := ih [] hy (List.cons_ne_nil _ _)
      rw [List.nil_append] at ih'
      rw [ih']
      simp [hnil]

/-- A text without the marker has no run of it. -/
theorem not_replicate_infix {a : α} {k : Nat} (hk : 0 < k) {l : List α} (h : a ∉ l) :
    ¬ List.replicate k a <:+: l := by
  intro hr
  have ha : a ∈ List.replicate k a := List.mem_replicate.mpr ⟨by omega, rfl⟩
  exact h (hr.subset ha)

/-- A run at the front survives a symbol-wise encoding that keeps the marker
and writes every other symbol, non-emptily, without it. -/
theorem replicate_prefix_flatMap {a : α} {b : β} {f : α → List β} (ha : f a = [b])
    (hf : ∀ x, x ≠ a → f x ≠ [] ∧ b ∉ f x) (k : Nat) (l : List α) :
    List.replicate k b <+: l.flatMap f ↔ List.replicate k a <+: l := by
  induction k generalizing l with
  | zero => simp
  | succ k ih =>
    cases l with
    | nil => simp
    | cons y l =>
      rw [List.flatMap_cons, List.replicate_succ, List.replicate_succ, List.cons_prefix_cons]
      by_cases hy : y = a
      · subst hy
        rw [ha, List.singleton_append, List.cons_prefix_cons, ih]
        simp
      · -- neither text starts with the marker
        rcases hf y hy with ⟨hne, hb⟩
        rcases List.exists_cons_of_ne_nil hne with ⟨z, zs, hz⟩
        rw [hz] at hb ⊢
        rw [List.cons_append, List.cons_prefix_cons]
        constructor
        · rintro ⟨rfl, -⟩
          exact absurd List.mem_cons_self hb
        · rintro ⟨rfl, -⟩
          exact absurd rfl hy

/-- A symbol-wise encoding of that kind neither makes nor breaks a run. -/
theorem replicate_infix_flatMap {a : α} {b : β} {f : α → List β} (ha : f a = [b])
    (hf : ∀ x, x ≠ a → f x ≠ [] ∧ b ∉ f x) {k : Nat} (hk : 0 < k) (l : List α) :
    List.replicate k b <:+: l.flatMap f ↔ List.replicate k a <:+: l := by
  induction l with
  | nil =>
    have h : k ≠ 0 := by omega
    simp [List.infix_nil, List.replicate_eq_nil_iff, h]
  | cons y l ih =>
    by_cases hy : y = a
    · subst hy
      rw [List.flatMap_cons, ha, List.singleton_append, List.infix_cons_iff,
        List.infix_cons_iff, ih, ← replicate_prefix_flatMap ha hf k (y :: l), List.flatMap_cons,
        ha, List.singleton_append]
    · -- another symbol separates on both sides
      rcases hf y hy with ⟨hne, hb⟩
      have hl : List.replicate k b <:+: (y :: l).flatMap f ↔
          List.replicate k b <:+: l.flatMap f := by
        have h := replicate_infix_between hk [] (f y) (l.flatMap f) hb hne
        have hnil : ¬ List.replicate k b <:+: ([] : List β) := not_replicate_infix hk (by simp)
        rw [List.nil_append] at h
        rw [List.flatMap_cons, h]
        simp [hnil]
      have hr : List.replicate k a <:+: y :: l ↔ List.replicate k a <:+: l := by
        have h := replicate_infix_sep (k := k) hy [] l
        have hnil : ¬ List.replicate k a <:+: ([] : List α) := not_replicate_infix hk (by simp)
        rw [List.nil_append] at h
        rw [h]
        simp [hnil]
      rw [hl, hr, ih]

end Marker
