import Mathlib.Data.List.Induction
import Mathlib.Data.Nat.Digits.Lemmas

/-!
# Decimal — decimal numbers as byte strings

Printing gives the shortest decimal text of a natural number; reading accepts
any non-empty string of digits, leading zeros included. The rules a user of
the codec needs are that reading undoes printing, that what is read is a
printed number behind zeros, that the text of a number below `10 ^ k` has at
most `k` digits, and that a text of at most `k` digits cannot name a number
from `10 ^ k` on.
-/

namespace Decimal

/-- The byte that writes a digit. -/
def digit (d : Nat) : UInt8 := UInt8.ofNat (48 + d)

/-- The byte writes some digit. -/
def isDigit (b : UInt8) : Bool := 48 ≤ b.toNat && b.toNat ≤ 57

/-- The decimal text of a number, most significant digit first. -/
def print (n : Nat) : List UInt8 :=
  if n = 0 then [digit 0] else ((Nat.digits 10 n).map digit).reverse

/-- One more digit on the right of a number already read. -/
def push (acc : Option Nat) (b : UInt8) : Option Nat :=
  acc.bind fun v => if isDigit b then some (10 * v + (b.toNat - 48)) else none

/-- The number a digit string names. -/
def value (l : List UInt8) : Option Nat := l.foldl push (some 0)

/-- Reading: `none` on the empty string and wherever a byte is not a digit. -/
def read (l : List UInt8) : Option Nat := if l = [] then none else value l

/-! ## Digits -/

theorem digit_toNat {d : Nat} (h : d < 10) : (digit d).toNat = 48 + d := by
  unfold digit
  rw [UInt8.toNat_ofNat']
  omega

theorem isDigit_digit {d : Nat} (h : d < 10) : isDigit (digit d) = true := by
  simp only [isDigit, digit_toNat h, Bool.and_eq_true, decide_eq_true_eq]
  omega

theorem value_append_one (l : List UInt8) (b : UInt8) : value (l ++ [b]) = push (value l) b := by
  simp [value, List.foldl_append]

theorem push_digit {v d : Nat} (h : d < 10) : push (some v) (digit d) = some (10 * v + d) := by
  simp only [push, Option.bind_some, isDigit_digit h, if_true, digit_toNat h]
  congr 1
  omega

theorem isDigit_of_push {acc : Option Nat} {b : UInt8} {v : Nat} (h : push acc b = some v) :
    isDigit b = true := by
  cases acc with
  | none => simp [push] at h
  | some w =>
    by_contra hb
    simp [push, hb] at h

/-! ## Printing -/

theorem value_digits (ds : List Nat) (h : ∀ d ∈ ds, d < 10) :
    value (ds.map digit).reverse = some (Nat.ofDigits 10 ds) := by
  induction ds with
  | nil => rfl
  | cons d ds ih =>
    have hd : d < 10 := h d List.mem_cons_self
    have hds : ∀ x ∈ ds, x < 10 := fun x hx => h x (List.mem_cons_of_mem _ hx)
    rw [List.map_cons, List.reverse_cons, value_append_one, ih hds, push_digit hd,
      Nat.ofDigits_cons]
    congr 1
    exact Nat.add_comm _ _

theorem print_ne_nil (n : Nat) : print n ≠ [] := by
  unfold print
  split
  · simp
  · rename_i h
    simpa using Nat.digits_ne_nil_iff_ne_zero.mpr h

/-- **Round trip.** Reading a number's text gives the number back. -/
theorem read_print (n : Nat) : read (print n) = some n := by
  rw [read, if_neg (print_ne_nil n), print]
  split
  · rename_i h
    rw [h]
    rfl
  · rw [value_digits _ fun d hd => Nat.digits_lt_base (by norm_num) hd, Nat.ofDigits_digits]

theorem isDigit_of_mem_print {n : Nat} {b : UInt8} (h : b ∈ print n) : isDigit b = true := by
  unfold print at h
  split at h
  · rw [List.mem_singleton] at h
    rw [h]
    exact isDigit_digit (by norm_num)
  · rw [List.mem_reverse, List.mem_map] at h
    rcases h with ⟨d, hd, rfl⟩
    exact isDigit_digit (Nat.digits_lt_base (by norm_num) hd)

/-- A number below `10 ^ k` is written with at most `k` digits. -/
theorem length_print_le {n k : Nat} (hk : 0 < k) (h : n < 10 ^ k) : (print n).length ≤ k := by
  unfold print
  split
  · simpa [Nat.one_le_iff_ne_zero] using hk.ne'
  · rename_i h0
    rw [List.length_reverse, List.length_map]
    by_contra hlt
    have hpow : 10 ^ (Nat.digits 10 n).length ≤ 10 * n :=
      Nat.base_pow_length_digits_le 10 n (by norm_num) h0
    have hle : 10 ^ (k + 1) ≤ 10 ^ (Nat.digits 10 n).length :=
      Nat.pow_le_pow_right (by norm_num) (by omega)
    rw [Nat.pow_succ] at hle
    omega

/-! ## Reading -/

theorem value_lt_pow_length {l : List UInt8} {v : Nat} (h : value l = some v) :
    v < 10 ^ l.length := by
  induction l using List.reverseRecOn generalizing v with
  | nil =>
    have hv : (0 : Nat) = v := by simpa [value] using h
    simp [← hv]
  | append_singleton l b ih =>
    rw [value_append_one] at h
    have hb := isDigit_of_push h
    cases hl : value l with
    | none => simp [hl, push] at h
    | some w =>
      have hw := ih hl
      have hv : 10 * w + (b.toNat - 48) = v := by simpa [hl, push, hb] using h
      simp only [isDigit, Bool.and_eq_true, decide_eq_true_eq] at hb
      rw [List.length_append, List.length_singleton, Nat.pow_succ]
      omega

theorem exists_digit {b : UInt8} (h : isDigit b = true) : ∃ d < 10, b = digit d := by
  simp only [isDigit, Bool.and_eq_true, decide_eq_true_eq] at h
  refine ⟨b.toNat - 48, by omega, ?_⟩
  rw [digit, Nat.add_sub_cancel' h.1, UInt8.ofNat_toNat]

/-- Zeros in front do not count. -/
theorem value_zeros (k : Nat) : value (List.replicate k (digit 0)) = some 0 := by
  induction k with
  | zero => rfl
  | succ k ih => rw [List.replicate_succ', value_append_one, ih, push_digit (by norm_num)]

/-- A number with one more digit. -/
theorem print_push {v d : Nat} (hv : 0 < v) (hd : d < 10) :
    print (10 * v + d) = print v ++ [digit d] := by
  have hdigits : Nat.digits 10 (10 * v + d) = d :: Nat.digits 10 v := by
    rw [Nat.add_comm]
    exact Nat.digits_add 10 (by norm_num) d v hd (Or.inr hv.ne')
  rw [print, if_neg (by omega), print, if_neg hv.ne', hdigits, List.map_cons, List.reverse_cons]

theorem print_digit {d : Nat} (hd : d < 10) : print d = [digit d] := by
  by_cases h0 : d = 0
  · rw [print, if_pos h0, h0]
  · rw [print, if_neg h0, Nat.digits_of_lt 10 d h0 hd]
    rfl

/-- The digits of a number may have zeros in front of them, and nothing else. -/
theorem exists_zeros_print {l : List UInt8} (hne : l ≠ []) {v : Nat} (h : value l = some v) :
    ∃ k, l = List.replicate k (digit 0) ++ print v := by
  induction l using List.reverseRecOn generalizing v with
  | nil => exact absurd rfl hne
  | append_singleton l b ih =>
    rw [value_append_one] at h
    obtain ⟨d, hd, rfl⟩ := exists_digit (isDigit_of_push h)
    cases hl : value l with
    | none => simp [hl, push] at h
    | some w =>
      have hv : v = 10 * w + d := by
        rw [hl, push_digit hd] at h
        exact (Option.some.inj h).symm
      by_cases hnil : l = []
      · -- the first digit
        subst hnil
        have hw : w = 0 := (Option.some.inj hl).symm
        exact ⟨0, by rw [hv, hw, Nat.mul_zero, Nat.zero_add, print_digit hd]; rfl⟩
      · obtain ⟨k, hk⟩ := ih hnil hl
        rcases Nat.eq_zero_or_pos w with hw | hw
        · -- all zeros so far, and one of them was the number
          refine ⟨k + 1, ?_⟩
          rw [hk, hv, hw, Nat.mul_zero, Nat.zero_add, print_digit hd, print_digit (by norm_num),
            List.replicate_succ']
        · exact ⟨k, by rw [hk, hv, print_push hw hd, List.append_assoc]⟩

/-- Any text of digits names a number. -/
theorem exists_read {l : List UInt8} (hne : l ≠ []) (h : ∀ b ∈ l, isDigit b = true) :
    ∃ v, read l = some v := by
  have hvalue : ∀ l : List UInt8, (∀ b ∈ l, isDigit b = true) → ∃ v, value l = some v := by
    intro l
    induction l using List.reverseRecOn with
    | nil => exact fun _ => ⟨0, rfl⟩
    | append_singleton l b ih =>
      intro h
      rcases ih fun c hc => h c (List.mem_append_left _ hc) with ⟨v, hv⟩
      have hb : isDigit b = true := h b (List.mem_append_right _ List.mem_cons_self)
      exact ⟨10 * v + (b.toNat - 48), by simp [value_append_one, hv, push, hb]⟩
  rcases hvalue l h with ⟨v, hv⟩
  exact ⟨v, by rw [read, if_neg hne, hv]⟩

/-- **What is read.** A text names `v` exactly when it is the text of `v`, behind
any number of zeros. -/
theorem read_eq_some_iff {l : List UInt8} {v : Nat} :
    read l = some v ↔ ∃ k, l = List.replicate k (digit 0) ++ print v := by
  constructor
  · intro h
    have hne : l ≠ [] := by
      rintro rfl
      simp [read] at h
    rw [read, if_neg hne] at h
    exact exists_zeros_print hne h
  · rintro ⟨k, rfl⟩
    have hprint := read_print v
    rw [read, if_neg (print_ne_nil v)] at hprint
    rw [read, if_neg (by simp [print_ne_nil]), value, List.foldl_append, ← value, value_zeros]
    exact hprint

/-- **Range.** A text of at most `k` bytes names a number below `10 ^ k`. -/
theorem read_lt_pow {l : List UInt8} {v k : Nat} (h : read l = some v) (hk : l.length ≤ k) :
    v < 10 ^ k := by
  unfold read at h
  split at h
  · simp at h
  · exact (value_lt_pow_length h).trans_le (Nat.pow_le_pow_right (by norm_num) hk)

/-! ## From the left -/

theorem foldl_push_none (l : List UInt8) : l.foldl push none = none := by
  induction l with
  | nil => rfl
  | cons b l ih => exact ih

/-- The first of the digits that follow a number already read. -/
theorem foldl_push_cons {v n : Nat} {b : UInt8} {l : List UInt8}
    (h : (b :: l).foldl push (some v) = some n) :
    isDigit b = true ∧ l.foldl push (some (10 * v + (b.toNat - 48))) = some n := by
  rw [List.foldl_cons] at h
  by_cases hb : isDigit b = true
  · refine ⟨hb, ?_⟩
    simpa [push, hb] using h
  · have hnone : push (some v) b = none := by simp [push, hb]
    rw [hnone, foldl_push_none] at h
    cases h

/-- Every digit makes the number at least ten times what it was. -/
theorem mul_pow_le_of_foldl_push {v n : Nat} {l : List UInt8}
    (h : l.foldl push (some v) = some n) : v * 10 ^ l.length ≤ n := by
  induction l generalizing v with
  | nil =>
    cases h
    simp
  | cons b l ih =>
    have hle := ih (foldl_push_cons h).2
    have hmul : v * 10 ^ (b :: l).length = 10 * v * 10 ^ l.length := by
      rw [List.length_cons, Nat.pow_succ]
      ring
    exact hmul.le.trans ((Nat.mul_le_mul_right _ (Nat.le_add_right _ _)).trans hle)

end Decimal
