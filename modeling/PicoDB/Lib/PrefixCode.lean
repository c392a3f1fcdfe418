import Mathlib.Data.List.Basic
import Mathlib.Data.List.Infix

/-!
# PrefixCode — words that say where they end

A reader takes a word from the front of a text and leaves the rest. It is
self-delimiting if what it takes does not depend on the rest. Its words then
are a prefix code: no word is a proper prefix of another (`prefix_free`), so a
word that is cut short is not read as anything (`not_read_of_prefix`), not even
with something behind it that cannot end a word (`not_read_of_padded`).
-/

namespace PrefixCode

variable {α β : Type*} {R : List α → β → List α → Prop}

/-- `R s x r`: from `s` the reader takes a word for `x`, and `r` is left. -/
structure SelfDelimiting (R : List α → β → List α → Prop) : Prop where
  suffix : ∀ {s x r}, R s x r → r <:+ s
  unique : ∀ {s x x' r r'}, R s x r → R s x' r' → x = x' ∧ r = r'
  append : ∀ {w x r}, R (w ++ r) x r → ∀ r', R (w ++ r') x r'

/-- A text that is taken whole. -/
def Word (R : List α → β → List α → Prop) (w : List α) (x : β) : Prop := R w x []

/-- What is taken is a word, whatever is behind it. -/
theorem SelfDelimiting.read_append_iff (h : SelfDelimiting R) {w r : List α} {x : β} :
    R (w ++ r) x r ↔ Word R w x := by
  constructor
  · intro hread
    have hword := h.append hread []
    rwa [List.append_nil] at hword
  · intro hword
    refine h.append (r := []) ?_ r
    rwa [List.append_nil]

/-- What is taken, and what is left. -/
theorem SelfDelimiting.exists_word (h : SelfDelimiting R) {s r : List α} {x : β}
    (hread : R s x r) : ∃ w, s = w ++ r ∧ Word R w x := by
  obtain ⟨w, rfl⟩ := h.suffix hread
  exact ⟨w, rfl, h.read_append_iff.mp hread⟩

/-- **No word is a proper prefix of another.** -/
theorem SelfDelimiting.prefix_free (h : SelfDelimiting R) {w w' : List α} {x x' : β}
    (hw : Word R w x) (hw' : Word R w' x') (hle : w <+: w') : w = w' ∧ x = x' := by
  obtain ⟨q, rfl⟩ := hle
  obtain ⟨hx, hq⟩ := h.unique (h.read_append_iff.mpr hw) hw'
  exact ⟨by rw [hq, List.append_nil], hx⟩

/-- A word that is cut short is not read. -/
theorem SelfDelimiting.not_read_of_prefix (h : SelfDelimiting R) {w p r : List α} {x y : β}
    (hw : Word R w x) (hp : p <+: w) (hne : p ≠ w) : ¬ R p y r := by
  intro hread
  obtain ⟨w', rfl, hw'⟩ := h.exists_word hread
  have heq := (h.prefix_free hw' hw ((List.prefix_append w' r).trans hp)).1
  apply hne
  rw [heq] at hp ⊢
  have hlen := hp.length_le
  rw [List.length_append] at hlen
  have hr : r = [] := List.length_eq_zero_iff.mp (by omega)
  rw [hr, List.append_nil]

/-- Nor is it with symbols behind it that end no word. -/
theorem SelfDelimiting.not_read_of_padded (h : SelfDelimiting R) {ends : α → Prop}
    (hends : ∀ {s x r}, R s x r → ∃ a c, ends c ∧ s = a ++ c :: r) {w p z r : List α} {x y : β}
    (hw : Word R w x) (hp : p <+: w) (hne : p ≠ w) (hz : ∀ c ∈ z, ¬ ends c) :
    ¬ R (p ++ z) y r := by
  intro hread
  obtain ⟨a, c, hc, heq⟩ := hends hread
  -- the symbol that ends the word that was read is one of `p`
  have hmid : ∃ m, p = a ++ c :: m := by
    rcases List.append_eq_append_iff.mp heq with ⟨m, rfl, hm⟩ | ⟨m, hm, hm'⟩
    · cases m with
      | nil =>
        rw [List.nil_append] at hm
        exact absurd hc (hz c (hm ▸ List.mem_cons_self))
      | cons d m =>
        exact absurd hc (hz c (by rw [hm]; simp))
    · cases m with
      | nil =>
        rw [List.nil_append] at hm'
        exact absurd hc (hz c (by rw [← hm']; exact List.mem_cons_self))
      | cons d m =>
        rw [List.cons_append, List.cons.injEq] at hm'
        exact ⟨m, by rw [hm, ← hm'.1]⟩
  obtain ⟨m, rfl⟩ := hmid
  have hr : r = m ++ z := by
    have heq' : a ++ c :: (m ++ z) = a ++ c :: r := by
      rw [← heq, List.append_assoc, List.cons_append]
    simpa using heq'.symm
  subst hr
  have hread' : R ((a ++ [c]) ++ (m ++ z)) y (m ++ z) := by
    simpa using hread
  have hshort := h.append hread' m
  rw [List.append_assoc, List.singleton_append] at hshort
  exact h.not_read_of_prefix hw hp hne hshort

end PrefixCode
