import PicoDB.JsonGrammar

/-!
# PicoDB.JsonNumbers — integers in a document

`decodeNumber` reads the digits of an integer one by one and leaves the number to
`decodeDouble` when it grows too large. The test looks at the number before the
last digit and at the last digit, but does not compare the number before the last
digit with the threshold once it is beyond it. So an integer up to ten times
too large is not noticed when its last digit is small.

* `decodeDigits_eq`: what the loop comes to.
* `parse_integer`: what a document of one integer is read as.
-/

namespace PicoDB

namespace Json

namespace Reader

variable {scanDouble : Bytes → Option UInt64}

/-- The loop on digits behind a number `v` that it has not refused: up to the
last digit nothing gets lost, so only the end says what it comes to. -/
theorem decodeDigits_eq {threshold lastDigitThreshold v n : Nat} {ds : Bytes}
    (hmax : 10 * threshold ≤ 2 ^ 64) (hv : v / 10 < threshold) (hds : ds ≠ [])
    (h : ds.foldl Decimal.push (some v) = some n) :
    decodeDigits threshold lastDigitThreshold v ds =
      if n / 100 < threshold ∧ (n / 10 < threshold ∨ n % 10 ≤ lastDigitThreshold) then
        .integer (n % 2 ^ 64)
      else .double := by
  induction ds generalizing v with
  | nil => exact absurd rfl hds
  | cons c ds ih =>
    obtain ⟨hc, hrest⟩ := Decimal.foldl_push_cons h
    have hdigit : c.toNat - 48 < 10 := by
      simp only [Decimal.isDigit, Bool.and_eq_true, decide_eq_true_eq] at hc
      omega
    rw [decodeDigits, if_pos hc]
    dsimp only
    generalize c.toNat - 48 = digit at hdigit hrest
    cases ds with
    | nil =>
      -- the last digit
      have hn : 10 * v + digit = n := Option.some.inj hrest
      have hmul : v * 10 + digit = n := by omega
      have hcond : (n / 100 < threshold ∧ (n / 10 < threshold ∨ n % 10 ≤ lastDigitThreshold)) ↔
          ¬ (threshold ≤ v ∧ (([] : Bytes) ≠ [] ∨ lastDigitThreshold < digit)) := by
        simp only [ne_eq, not_true_eq_false, false_or]
        omega
      by_cases hlarge : threshold ≤ v ∧ (([] : Bytes) ≠ [] ∨ lastDigitThreshold < digit)
      · rw [if_pos hlarge, if_neg fun hn => hcond.mp hn hlarge]
      · rw [if_neg hlarge, if_pos (hcond.mpr hlarge), decodeDigits, hmul]
    | cons c' ds =>
      by_cases hlarge : threshold ≤ v
      · have hle := Decimal.mul_pow_le_of_foldl_push h
        have hpow : 10 ^ 2 ≤ 10 ^ (c :: c' :: ds).length :=
          Nat.pow_le_pow_right (by norm_num) (by simp)
        have hhundred : v * 100 ≤ n := (Nat.mul_le_mul_left v hpow).trans hle
        rw [if_pos ⟨hlarge, Or.inl (List.cons_ne_nil _ _)⟩, if_neg]
        omega
      · have hsmall : (v * 10 + digit) % 2 ^ 64 = 10 * v + digit := by
          rw [Nat.mod_eq_of_lt (by omega)]
          omega
        rw [if_neg (fun h => hlarge h.1), hsmall]
        exact ih (by omega) (List.cons_ne_nil _ _) hrest

/-! ## Texts of integers -/

/-- The sign in front of the digits. -/
def sign (isNegative : Bool) : Bytes := if isNegative then [45] else []

/-- `maxIntegerValue`. -/
def maxIntegerValue (isNegative : Bool) : Nat := if isNegative then 2 ^ 63 else 2 ^ 64 - 1

/-- The value that a number of 64 bits becomes. -/
def integer (isNegative : Bool) (value : Nat) : Value :=
  if isNegative then .intValue (Int.bmod (-value) (2 ^ 64))
  else if value ≤ 2 ^ 31 - 1 then .intValue value
  else .uintValue value

theorem digit_plain {c : Byte} (h : Decimal.isDigit c = true) :
    isNumberChar c = true ∧ c ≠ 45 ∧
      (c == 46 || c == 101 || c == 69 || c == 43) = false := by
  obtain ⟨d, hd, rfl⟩ := Decimal.exists_digit h
  have hall : ∀ d : Fin 10, isNumberChar (Decimal.digit d) = true ∧ Decimal.digit d ≠ 45 ∧
      (Decimal.digit d == 46 || Decimal.digit d == 101 || Decimal.digit d == 69 ||
        Decimal.digit d == 43) = false := by decide
  exact hall ⟨d, hd⟩

/-- A text that names a number is one of digits. -/
theorem isDigit_of_read {ds : Bytes} {n : Nat} (h : Decimal.read ds = some n) :
    ds ≠ [] ∧ ds.foldl Decimal.push (some 0) = some n ∧ ∀ b ∈ ds, Decimal.isDigit b = true := by
  have hne : ds ≠ [] := by
    rintro rfl
    cases h
  rw [Decimal.read, if_neg hne] at h
  have hdigits : ∀ (l : Bytes) (v : Nat), l.foldl Decimal.push (some v) = some n →
      ∀ b ∈ l, Decimal.isDigit b = true := by
    intro l
    induction l with
    | nil => exact fun _ _ b hb => by cases hb
    | cons c l ih =>
      intro v hl
      obtain ⟨hc, hrest⟩ := Decimal.foldl_push_cons hl
      exact List.forall_mem_cons.mpr ⟨hc, ih _ hrest⟩
  exact ⟨hne, h, hdigits ds 0 h⟩

theorem decodeNumber_eq {t : Token} (h : isDouble t.text = false) :
    decodeNumber scanDouble t =
      let isNegative : Bool := t.text.head? = some 45
      match decodeDigits (maxIntegerValue isNegative / 10) (maxIntegerValue isNegative % 10) 0
        (if isNegative then t.text.tail else t.text) with
      | .notANumber => .error (notANumber t)
      | .double => decodeDouble scanDouble t
      | .integer value => .ok (integer isNegative value) := by
  unfold decodeNumber
  rw [h, if_neg Bool.false_ne_true]
  by_cases hhead : t.text.head? = some 45
  · dsimp only
    rw [decide_eq_true hhead]
    simp_rw [if_pos hhead]
    rfl
  · simp only [hhead, maxIntegerValue, integer, decide_false, if_false, Bool.false_eq_true]
    cases decodeDigits ((2 ^ 64 - 1) / 10) ((2 ^ 64 - 1) % 10) 0 t.text with
    | notANumber => rfl
    | double => rfl
    | integer value => exact (apply_ite Except.ok _ _ _).symm

/-- **What an integer is decoded to.** -/
theorem decodeNumber_integer {t : Token} {isNegative : Bool} {ds : Bytes} {n : Nat}
    (htext : t.text = sign isNegative ++ ds) (h : Decimal.read ds = some n) :
    decodeNumber scanDouble t =
      if n ≤ maxIntegerValue isNegative then .ok (integer isNegative n)
      else if n < 100 * (maxIntegerValue isNegative / 10) ∧
          n % 10 ≤ maxIntegerValue isNegative % 10 then .ok (integer isNegative (n % 2 ^ 64))
      else decodeDouble scanDouble t := by
  obtain ⟨hne, hvalue, hdigits⟩ := isDigit_of_read h
  have hplain : ∀ b ∈ ds, (b == 46 || b == 101 || b == 69 || b == 43) = false ∧ b ≠ 45 :=
    fun b hb => ⟨(digit_plain (hdigits b hb)).2.2, (digit_plain (hdigits b hb)).2.1⟩
  have hdouble : isDouble t.text = false := by
    rw [htext, isDouble, Bool.or_eq_false_iff]
    constructor
    · rw [List.any_append, Bool.or_eq_false_iff]
      refine ⟨by cases isNegative <;> rfl, ?_⟩
      rw [List.any_eq_false]
      exact fun b hb => by simp [(hplain b hb).1]
    · have htail : ∀ b ∈ (sign isNegative ++ ds).tail, b ≠ 45 := by
        intro b hb
        cases isNegative with
        | true => exact (hplain b hb).2
        | false => exact (hplain b (List.mem_of_mem_tail hb)).2
      simpa using fun hmem => htail 45 hmem rfl
  have hhead : decide (t.text.head? = some 45) = isNegative := by
    rw [htext]
    cases isNegative with
    | true => rfl
    | false =>
      cases ds with
      | nil => exact absurd rfl hne
      | cons c ds => simpa [sign] using (hplain c List.mem_cons_self).2
  have hcurrent : (if isNegative then t.text.tail else t.text) = ds := by
    rw [htext]
    cases isNegative <;> rfl
  have hmax : maxIntegerValue isNegative < 2 ^ 64 := by cases isNegative <;> decide
  have hpos : 10 ≤ maxIntegerValue isNegative := by cases isNegative <;> decide
  have hloop := @decodeDigits_eq (maxIntegerValue isNegative / 10) (maxIntegerValue isNegative % 10)
    0 n ds (by omega) (by omega) hne hvalue
  rw [decodeNumber_eq hdouble]
  dsimp only
  rw [hhead, hcurrent, hloop]
  by_cases hfits : n ≤ maxIntegerValue isNegative
  · rw [if_pos (by omega), if_pos hfits]
    dsimp only
    rw [Nat.mod_eq_of_lt (by omega)]
  · -- the number before the last digit is at the threshold or beyond it
    rw [if_neg hfits]
    by_cases hsmall : n < 100 * (maxIntegerValue isNegative / 10) ∧
        n % 10 ≤ maxIntegerValue isNegative % 10
    · rw [if_pos (by omega), if_pos hsmall]
    · rw [if_neg (by omega), if_neg hsmall]

/-! ## Tokens of numbers -/

/-- What follows does not go on a number. -/
def EndsNumber (rest : Location) : Prop := ∀ c, rest.head? = some c → isNumberChar c = false

/-- The first character of a number. -/
def StartsNumber (c : Byte) : Prop := Decimal.isDigit c = true ∨ c = 45

theorem StartsNumber.plain {c : Byte} (h : StartsNumber c) :
    (Decimal.isDigit c || c == 45) = true ∧ isSpace c = false ∧ oneCharToken c = none ∧ c ≠ 34 ∧
      c ≠ 47 := by
  rcases h with h | rfl
  · obtain ⟨d, hd, rfl⟩ := Decimal.exists_digit h
    have hall : ∀ d : Fin 10, (Decimal.isDigit (Decimal.digit d) || Decimal.digit d == 45) = true ∧
        isSpace (Decimal.digit d) = false ∧ oneCharToken (Decimal.digit d) = none ∧
        Decimal.digit d ≠ 34 ∧ Decimal.digit d ≠ 47 := by decide
    exact hall ⟨d, hd⟩
  · decide

/-- A number token takes all that goes on it. -/
theorem readToken_number {c : Byte} (hc : StartsNumber c) {s rest : Location}
    (hs : ∀ b ∈ s, isNumberChar b = true) (hrest : EndsNumber rest) :
    readToken (c :: s ++ rest) =
      { type_ := .tokenNumber, start_ := c :: s ++ rest, end_ := rest } := by
  obtain ⟨hnumber, hspace, hone, hquote, hslash⟩ := hc.plain
  have hread : readNumber (s ++ rest) = rest := by
    rw [readNumber, List.dropWhile_append_of_pos hs]
    cases rest with
    | nil => rfl
    | cons d rest => rw [List.dropWhile_cons_of_neg (by simp [hrest d rfl])]
  have hat : readTokenAt c (s ++ rest) = (.tokenNumber, rest) := by
    rw [readTokenAt, hone]
    dsimp only
    rw [if_neg hquote, if_neg hslash, if_pos hnumber, hread]
  rw [List.cons_append, readToken_cons hspace, hat]

theorem text_of_append (type_ : TokenType) (s rest : Location) :
    Token.text { type_ := type_, start_ := s ++ rest, end_ := rest } = s := by
  rw [Token.text, List.length_append, Nat.add_sub_cancel, List.take_left]

/-- A document of one number. -/
theorem parse_number {c : Byte} (hc : StartsNumber c) {s : Location}
    (hs : ∀ b ∈ s, isNumberChar b = true) :
    (parse scanDouble (c :: s)).1 =
      (decodeNumber scanDouble
        { type_ := .tokenNumber, start_ := c :: s, end_ := [] }).toOption := by
  have hend : EndsNumber [] := fun c h => by cases h
  have htoken := readToken_number hc hs hend
  rw [List.append_nil] at htoken
  have hskip : skipCommentTokens (c :: s) =
      { type_ := .tokenNumber, start_ := c :: s, end_ := [] } := by
    rw [skipCommentTokens_of_ne (by rw [htoken]; simp), htoken]
  have hvalue : ∀ x, (parse scanDouble (c :: s)).1 = some x ↔ decodeNumber scanDouble
      { type_ := .tokenNumber, start_ := c :: s, end_ := [] } = .ok x := by
    intro x
    rw [parse_eq_some_iff]
    constructor
    · rintro ⟨rest, h⟩
      cases h with
      | number _ hx => rwa [hskip] at hx
      | null h => rw [hskip] at h; cases h
      | true h => rw [hskip] at h; cases h
      | false h => rw [hskip] at h; cases h
      | string h => rw [hskip] at h; cases h
      | object h => rw [hskip] at h; cases h
      | array h => rw [hskip] at h; cases h
    · intro hx
      exact ⟨_, .number (by rw [hskip]) (by rw [hskip, hx])⟩
  refine Option.ext fun x => ?_
  rw [hvalue]
  cases decodeNumber scanDouble { type_ := .tokenNumber, start_ := c :: s, end_ := [] } with
  | error e => simp [Except.toOption]
  | ok y => simp [Except.toOption]

/-! ## Documents of one integer -/

/-- The number a text with a sign writes. -/
def signed (isNegative : Bool) (n : Nat) : Int := if isNegative then -n else n

/-- A number of 64 bits, as the reader represents it: a `LargestInt` up to
`maxInt`, and a `LargestUInt` from there on. -/
def ofInt (z : Int) : Value := if z < 2 ^ 31 then .intValue z else .uintValue z.toNat

theorem integer_eq {isNegative : Bool} {n : Nat} (h : n ≤ maxIntegerValue isNegative) :
    integer isNegative n = ofInt (signed isNegative n) := by
  cases isNegative with
  | true =>
    have hle : n ≤ 2 ^ 63 := h
    have hmod : Int.bmod (-n) (2 ^ 64) = -n := by
      refine Int.bmod_eq_of_le ?_ ?_ <;> omega
    simp only [integer, if_true, signed, ofInt, hmod]
    rw [if_pos (by omega)]
  | false =>
    simp only [integer, signed, ofInt, Bool.false_eq_true, if_false, Int.toNat_natCast]
    by_cases hn : n ≤ 2 ^ 31 - 1
    · rw [if_pos hn, if_pos (by omega)]
    · rw [if_neg hn, if_neg (by omega)]

theorem text_number (isNegative : Bool) {ds : Bytes} {n : Nat} (h : Decimal.read ds = some n) :
    ∃ c s, sign isNegative ++ ds = c :: s ∧ StartsNumber c ∧ ∀ b ∈ s, isNumberChar b = true := by
  obtain ⟨hne, -, hdigits⟩ := isDigit_of_read h
  cases isNegative with
  | true => exact ⟨45, ds, rfl, Or.inr rfl, fun b hb => (digit_plain (hdigits b hb)).1⟩
  | false =>
    cases ds with
    | nil => exact absurd rfl hne
    | cons c s =>
      exact ⟨c, s, rfl, Or.inl (hdigits c List.mem_cons_self),
        fun b hb => (digit_plain (hdigits b (List.mem_cons_of_mem c hb))).1⟩

/-- **Integers.** A document of an optional minus sign and digits is read as the
number it writes if that fits into 64 bits. Beyond that, a number below a
hundred times the threshold whose last digit is not above that of the largest
number is read as what is left of it in 64 bits, and any other is left to
`decodeDouble`. -/
theorem parse_integer {isNegative : Bool} {ds : Bytes} {n : Nat} (h : Decimal.read ds = some n) :
    (parse scanDouble (sign isNegative ++ ds)).1 =
      if n ≤ maxIntegerValue isNegative then some (ofInt (signed isNegative n))
      else if n < 100 * (maxIntegerValue isNegative / 10) ∧
          n % 10 ≤ maxIntegerValue isNegative % 10 then some (integer isNegative (n % 2 ^ 64))
      else (scanDouble (sign isNegative ++ ds)).map .realValue := by
  obtain ⟨c, s, htext, hc, hs⟩ := text_number isNegative h
  have hparse := @parse_number scanDouble c hc s hs
  have htoken : Token.text { type_ := .tokenNumber, start_ := c :: s, end_ := [] } =
      sign isNegative ++ ds := by
    have h := text_of_append .tokenNumber (c :: s) []
    rw [List.append_nil] at h
    rw [h, htext]
  rw [htext, hparse, decodeNumber_integer htoken h]
  by_cases hfits : n ≤ maxIntegerValue isNegative
  · rw [if_pos hfits, if_pos hfits, integer_eq hfits]
    rfl
  · rw [if_neg hfits, if_neg hfits]
    split
    · rfl
    · rw [decodeDouble, htoken, ← htext]
      cases scanDouble (sign isNegative ++ ds) <;> rfl

/-- The first number that is too large and is not noticed. -/
theorem parse_integer_wraps : (parse (fun _ => none) (ascii "18446744073709551620")).1 =
    some (.intValue 4) :=
  @parse_integer _ false _ 18446744073709551620 (by decide +kernel)

end Reader

end Json

end PicoDB
