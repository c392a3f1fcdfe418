import Mathlib.Data.List.Infix
import Mathlib.Data.List.Nodup
import PicoDB.Lib.Lts

/-!
# Shelf — a store that takes in and gives out at the same end

Items that are pushed at the back and popped from the back come out newest
first. A shelf still serves its items in the order they came in as long as
nobody lets it fill: `prefix_iff` says that the items popped are the items
pushed, in order and as far as they go, exactly when no pop of the run found
more than one item.
-/

namespace Shelf

open Lts

universe u v w
variable {α : Type u}

/-- What is on the shelf, and all that was ever pushed and popped. -/
structure State (α : Type u) where
  items : List α := []
  pushed : List α := []
  popped : List α := []

inductive Label (α : Type u) where
  | push (x : α)
  | pop

/-- The shelf as a system. Every item is pushed once. -/
def shelf : System (State α) (Label α) where
  Init s := s = {}
  guard
    | .push x, s => x ∉ s.pushed
    | .pop, s => s.items ≠ []
  update
    | .push x, s => { s with items := s.items ++ [x], pushed := s.pushed ++ [x] }
    | .pop, s =>
      { s with items := s.items.dropLast, popped := s.popped ++ s.items.getLast?.toList }

/-- The step is a pop that finds more than one item. -/
def Crowded (p : State α × Label α) : Prop := p.2 = .pop ∧ 1 < p.1.items.length

/-- No item is pushed twice. -/
theorem nodup_pushed {tr : List (State α × Label α)} {s : State α} (h : Run shelf tr s) :
    s.pushed.Nodup := by
  refine run_invariant (fun s => s.pushed.Nodup) ?_ ?_ h
  · rintro s rfl
    exact List.nodup_nil
  · intro l s hg hi
    cases l with
    | push x => exact List.nodup_append_comm.mp (List.nodup_cons.mpr ⟨hg, hi⟩)
    | pop => exact hi

/-- An item popped was pushed before it, so pops never get ahead. -/
theorem length_popped_add_items {tr : List (State α × Label α)} {s : State α} (h : Run shelf tr s) :
    s.popped.length + s.items.length = s.pushed.length := by
  refine run_invariant (fun s => s.popped.length + s.items.length = s.pushed.length) ?_ ?_ h
  · rintro s rfl
    rfl
  · intro l s hg hi
    cases l with
    | push x =>
      simp only [shelf, List.length_append, List.length_singleton]
      omega
    | pop =>
      rcases List.eq_nil_or_concat s.items with hnil | ⟨items, x, hx⟩
      · exact absurd hnil hg
      · simp only [shelf, hx, List.concat_eq_append, List.getLast?_concat,
          List.dropLast_concat, List.length_append, Option.toList, List.length_singleton] at hi ⊢
        omega

/-- What was pushed has been popped or is still on the shelf, each item once. -/
theorem pushed_perm {tr : List (State α × Label α)} {s : State α} (h : Run shelf tr s) :
    s.pushed.Perm (s.popped ++ s.items) := by
  refine run_invariant (fun s => s.pushed.Perm (s.popped ++ s.items)) ?_ ?_ h
  · rintro s rfl
    exact List.Perm.refl _
  · intro l s hg hi
    cases l with
    | push x =>
      simp only [shelf]
      rw [← List.append_assoc]
      exact hi.append_right [x]
    | pop =>
      rcases List.eq_nil_or_concat s.items with hnil | ⟨items, x, hx⟩
      · exact absurd hnil hg
      · -- the last item changes over
        rw [List.concat_eq_append] at hx
        rw [hx] at hi
        simp only [shelf, hx, List.getLast?_concat, List.dropLast_concat, Option.toList_some,
          List.append_assoc]
        exact hi.trans (List.perm_append_comm.append_left s.popped)

/-- While no pop is crowded, the shelf holds the items still to come. -/
theorem pushed_eq_of_not_crowded {tr : List (State α × Label α)} {s : State α}
    (h : Run shelf tr s) (hc : ∀ p ∈ tr, ¬ Crowded p) : s.pushed = s.popped ++ s.items := by
  refine run_invariant_of (fun s l => ¬ Crowded (s, l))
    (fun s => s.pushed = s.popped ++ s.items) ?_ ?_ h hc
  · rintro s rfl
    rfl
  · intro l s hg hcalm hi
    cases l with
    | push x =>
      simp only [shelf]
      rw [hi, List.append_assoc]
    | pop =>
      have hle : ¬ 1 < s.items.length := fun hlt => hcalm ⟨rfl, hlt⟩
      cases hx : s.items with
      | nil => exact absurd hx hg
      | cons x rest =>
        -- one item is both the first and the last
        have hrest : rest = [] := by
          rw [hx, List.length_cons] at hle
          exact List.length_eq_zero_iff.mp (by omega)
        subst hrest
        simp only [shelf, hi, hx]
        simp

/-- **Order of service.** The items popped are a prefix of the items pushed
exactly when no pop was crowded. -/
theorem prefix_iff {tr : List (State α × Label α)} {s : State α} (h : Run shelf tr s) :
    s.popped <+: s.pushed ↔ ∀ p ∈ tr, ¬ Crowded p := by
  constructor
  · intro hpre
    induction h with
    | start _ => simp
    | @next tr s l hr hg ih =>
      have hlen := length_popped_add_items hr
      -- the order was kept before the last step, since neither list shrinks
      have hbefore : s.popped <+: s.pushed := by
        cases l with
        | push x =>
          exact List.prefix_of_prefix_length_le hpre (List.prefix_append _ _) (by omega)
        | pop => exact (List.prefix_append _ _).trans hpre
      have hcalm := ih hbefore
      intro p hp
      rcases List.mem_append.mp hp with hp | hp
      · exact hcalm p hp
      · rw [List.mem_singleton] at hp
        subst hp
        rintro ⟨hl, hlt⟩
        cases hl
        have heq := pushed_eq_of_not_crowded hr hcalm
        have hnodup := nodup_pushed hr
        rw [heq] at hnodup
        have hitems : s.items.Nodup := (List.nodup_append.mp hnodup).2.1
        -- the item popped is the last of at least two, not the first
        rcases List.eq_nil_or_concat s.items with hnil | ⟨items, x, hx⟩
        · simp [hnil] at hlt
        · rw [List.concat_eq_append] at hx
          have hlast : [x] <+: s.items := by
            have h : s.popped ++ s.items.getLast?.toList <+: s.pushed := hpre
            rw [heq, List.prefix_append_right_inj, hx, List.getLast?_concat] at h
            rw [hx]
            exact h
          cases items with
          | nil => simp [hx] at hlt
          | cons y items =>
            rw [hx, List.cons_append, List.cons_prefix_cons] at hlast
            rw [hx, List.cons_append, List.nodup_cons] at hitems
            exact hitems.1 (by simp [hlast.1])
  · intro hcalm
    rw [pushed_eq_of_not_crowded h hcalm]
    exact List.prefix_append _ _

/-- A system that simulates a shelf serves in order exactly when none of its
pops is crowded. -/
theorem prefix_iff_of_simulates {σ : Type v} {β : Type w} {M : System σ β} (f : σ → State α)
    (g : σ → β → Option (Label α)) (hinit : ∀ s, M.Init s → shelf.Init (f s))
    (hstut : ∀ tr l s, Run M tr s → M.guard l s → g s l = none → f (M.update l s) = f s)
    (hstep : ∀ tr l s b, Run M tr s → M.guard l s → g s l = some b →
      shelf.guard b (f s) ∧ f (M.update l s) = shelf.update b (f s))
    {tr : List (σ × β)} {s : σ} (h : Run M tr s) :
    (f s).popped <+: (f s).pushed ↔
      ∀ p ∈ tr, g p.1 p.2 = some .pop → (f p.1).items.length ≤ 1 := by
  rw [prefix_iff (run_simulates f g hinit hstut hstep h)]
  constructor
  · intro hcalm p hp hg
    have hmem : (f p.1, Label.pop) ∈ tr.filterMap (mapStep f g) :=
      List.mem_filterMap.mpr ⟨p, hp, by rw [mapStep, hg]; rfl⟩
    exact not_lt.mp fun hlt => hcalm _ hmem ⟨rfl, hlt⟩
  · rintro hcalm q hq ⟨hpop, hlt⟩
    rcases List.mem_filterMap.mp hq with ⟨p, hp, hpq⟩
    rcases Option.map_eq_some_iff.mp hpq with ⟨b, hb, rfl⟩
    dsimp only at hpop hlt
    subst hpop
    exact absurd hlt (not_lt.mpr (hcalm p hp hb))

end Shelf
