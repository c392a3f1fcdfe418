import PicoDB.JsonGrammar

/-!
# PicoDB.JsonErrors — where an error of the reader is said to be

`getLocationLineAndColumn` walks from the start of the document to the location and
counts the line ends, which may be those of any system. `lineAndColumn_eq` says
that it comes to the position behind what stands before the location; only
between the two characters of a line end is the column off. No token begins there,
so a document that is refused is reported at the right place (`parse_message`).
-/

namespace PicoDB

namespace Json

/-- `StyledWriter::normalizeEOL`. -/
def normalizeEOL : Bytes → Bytes
  | [] => []
  | [c] => [if c = 13 then 10 else c]
  | c :: d :: current =>
    if c = 13 ∧ d = 10 then 10 :: normalizeEOL current
    else (if c = 13 then 10 else c) :: normalizeEOL (d :: current)

namespace Reader

variable {scanDouble : Bytes → Option UInt64}

/-- One character further on: to the right, or to the start of the next line. -/
def advance (position : Nat × Nat) (c : Byte) : Nat × Nat :=
  if c = 10 then (position.1 + 1, 1) else (position.1, position.2 + 1)

/-- Line and column behind a text, both counted from one. -/
def positionBehind (text : Bytes) : Nat × Nat := (normalizeEOL text).foldl advance (1, 1)

/-- The location is between the two characters of one line end. -/
def Splits (before location : Bytes) : Prop := before.getLast? = some 13 ∧ location.head? = some 10

instance (before location : Bytes) : Decidable (Splits before location) :=
  inferInstanceAs (Decidable (_ ∧ _))

/-- The walk stops where it has come to the location, or beyond it. -/
theorem skipLines_of_le {location current : Location} (lastLineStart : Location) (line : Nat)
    (h : current.length ≤ location.length) :
    skipLines location current lastLineStart line = (lastLineStart, line) := by
  rcases current with _ | ⟨c, _ | ⟨d, current⟩⟩
  · rfl
  · exact if_neg (Nat.not_lt.mpr h)
  · rw [skipLines]
    exact if_neg (Nat.not_lt.mpr h)

/-- One turn of the walk, before the location. -/
theorem skipLines_cons {location current : Location} (c d : Byte) (lastLineStart : Location)
    (line : Nat) (h : location.length < current.length + 2) :
    skipLines location (c :: d :: current) lastLineStart line =
      if c = 13 ∧ d = 10 then skipLines location current current (line + 1)
      else if c = 13 ∨ c = 10 then skipLines location (d :: current) (d :: current) (line + 1)
      else skipLines location (d :: current) lastLineStart line := by
  rw [skipLines, if_pos h]

/-- What a character that is not half of a line end does to the position. -/
theorem advance_char (position : Nat × Nat) (c : Byte) :
    advance position (if c = 13 then 10 else c) =
      if c = 13 ∨ c = 10 then (position.1 + 1, 1) else (position.1, position.2 + 1) := by
  by_cases h13 : c = 13
  · rw [if_pos h13, if_pos (Or.inl h13)]
    rfl
  · rw [if_neg h13, advance]
    simp [h13]

/-- The walk has come to this position: the line, and how far the location is behind
the start of its line. -/
def ComesTo (location : Location) (walk : Location × Nat) (line : Nat) (column : Int) : Prop :=
  walk.2 + 1 = line ∧ (walk.1.length : Int) - location.length + 1 = column

/-- The walk up to the location, from `k` characters behind the start of a line. -/
theorem skipLines_append (location : Location) : ∀ (before lastLineStart : Bytes) (line k : Nat),
    lastLineStart.length = k + (before.length + location.length) →
    ComesTo location (skipLines location (before ++ location) lastLineStart line)
      ((normalizeEOL before).foldl advance (line + 1, k + 1)).1
      (if Splits before location then 0
        else (((normalizeEOL before).foldl advance (line + 1, k + 1)).2 : Int))
  | [], lastLineStart, line, k, h => by
    have hnot : ¬ Splits [] location := by simp [Splits]
    rw [List.nil_append, skipLines_of_le _ _ le_rfl, if_neg hnot]
    refine ⟨rfl, ?_⟩
    simp [h, normalizeEOL]
  | [c], lastLineStart, line, k, h => by
    rw [normalizeEOL, List.foldl_cons, List.foldl_nil, advance_char]
    rw [List.length_singleton] at h
    cases location with
    | nil =>
      have hnot : ¬ Splits [c] [] := by simp [Splits]
      rw [if_neg hnot, List.append_nil, skipLines, if_pos (by simp)]
      split
      · exact ⟨rfl, rfl⟩
      · exact ⟨rfl, by simp [h]⟩
    | cons d location =>
      rw [List.singleton_append, skipLines_cons c d lastLineStart line (by simp)]
      by_cases hcr : c = 13 ∧ d = 10
      · -- the walk goes beyond the location
        have hsplits : Splits [c] (d :: location) := ⟨by rw [hcr.1]; rfl, by rw [hcr.2]; rfl⟩
        rw [if_pos hcr, skipLines_of_le _ _ (Nat.le_succ _), if_pos hsplits, if_pos (Or.inl hcr.1)]
        exact ⟨rfl, by simp⟩
      · have hnot : ¬ Splits [c] (d :: location) := by
          rintro ⟨hc, hd⟩
          exact hcr ⟨by simpa using hc, by simpa using hd⟩
        rw [if_neg hcr, if_neg hnot, skipLines_of_le _ _ le_rfl, skipLines_of_le _ _ le_rfl]
        split
        · exact ⟨rfl, by simp⟩
        · refine ⟨rfl, ?_⟩
          simp only [h, List.length_cons]
          omega
  | c :: d :: before, lastLineStart, line, k, h => by
    have hsplits : Splits (c :: d :: before) location ↔ Splits (d :: before) location := by
      simp [Splits]
    rw [List.cons_append, List.cons_append,
      skipLines_cons c d lastLineStart line (by rw [List.length_append]; omega), normalizeEOL]
    by_cases hcr : c = 13 ∧ d = 10
    · -- both characters are one line end
      have hsplits' : Splits (d :: before) location ↔ Splits before location := by
        rw [hcr.2]
        cases before <;> simp [Splits]
      have ih := skipLines_append location before (before ++ location) (line + 1) 0
        (by rw [List.length_append, Nat.zero_add])
      rw [if_pos hcr, if_pos hcr, if_congr (hsplits.trans hsplits') rfl rfl, List.foldl_cons]
      exact ih
    · have ih := skipLines_append location (d :: before)
      rw [if_neg hcr, if_neg hcr, if_congr hsplits rfl rfl, List.foldl_cons, advance_char]
      split
      · exact ih (d :: (before ++ location)) (line + 1) 0 (by simp; omega)
      · exact ih lastLineStart line (k + 1) (by rw [h]; simp; omega)

/-- **Positions.** Line and column of a location are those behind the text before it;
only between the two characters of a line end the column is 0. -/
theorem lineAndColumn_eq (before location : Bytes) :
    lineAndColumn (before ++ location) location =
      ((positionBehind before).1,
        if Splits before location then 0 else ((positionBehind before).2 : Int)) := by
  obtain ⟨hline, hcolumn⟩ := skipLines_append location before (before ++ location) 0 0
    (by rw [List.length_append, Nat.zero_add])
  exact Prod.ext hline hcolumn

/-- What `getLocationLineAndColumn` writes for the position behind a text. -/
def positionText (before : Bytes) : Bytes :=
  ascii "Line " ++ convertToString (positionBehind before).1 ++ ascii ", Column " ++
    convertToString (positionBehind before).2

theorem getLocationLineAndColumn_eq {before location : Bytes} (h : ¬ Splits before location) :
    getLocationLineAndColumn (before ++ location) location = positionText before := by
  have hprint : ∀ n : Nat, printInt n = convertToString n := fun n => by
    rw [printInt, if_neg (by omega), Int.natAbs_natCast]
  rw [getLocationLineAndColumn, lineAndColumn_eq, if_neg h]
  dsimp only
  rw [hprint, hprint]
  rfl

/-- **Messages.** A document that is refused is reported with one message, for the only
error that the reader has recorded. It names the position of the token of the error,
which stands in the document; the detail, if there is one, is a location within that
token. -/
theorem parse_message {document : Bytes} (h : (parse scanDouble document).1 = none) :
    ∃ (e : ErrorInfo) (before : Bytes), (parse scanDouble document).2.errors_ = [e] ∧
      ErrorIn document e ∧ document = before ++ e.token_.start_ ∧
      getFormattedErrorMessages document (parse scanDouble document).2 =
        ascii "* " ++ positionText before ++ ascii "\n" ++ ascii "  " ++ e.message_ ++ ascii "\n" ++
          match e.extra_ with
          | some extra =>
            ascii "See " ++ getLocationLineAndColumn document extra ++ ascii " for detail.\n"
          | none => [] := by
  obtain ⟨e, hone, herror⟩ := one_error_of_none h
  obtain ⟨before, hbefore⟩ := herror.token_.start_
  -- a token does not begin with a line end
  have hnot : ¬ Splits before e.token_.start_ := by
    rintro ⟨-, hhead⟩
    cases herror.token_.fresh 10 hhead
  refine ⟨e, before, hone, herror, hbefore.symm, ?_⟩
  have hposition := getLocationLineAndColumn_eq hnot
  rw [hbefore] at hposition
  rw [getFormattedErrorMessages, hone, List.flatMap_singleton]
  cases hdetail : e.extra_ <;>
    simp only [formatError, hdetail, hposition, List.append_assoc, List.append_nil]

/-- A comma too many, on the second line. -/
theorem parse_message_comma :
    let document := ascii "\x7b\r\n ,"
    let r := (parse (fun _ => none) document).2
    let message := getFormattedErrorMessages document r
    message = ascii "* Line 2, Column 2\n  Missing '\x7d' or object member name\n" ∧
      ∃ (e : ErrorInfo) (before : Bytes), r.errors_ = [e] ∧
        document = before ++ e.token_.start_ ∧ ascii "* " ++ positionText before <+: message := by
  refine ⟨by decide +kernel, ?_⟩
  obtain ⟨e, before, hone, -, hbefore, hmessage⟩ :=
    @parse_message (fun _ => none) (ascii "\x7b\r\n ,") (by decide +kernel)
  refine ⟨e, before, hone, hbefore, ?_⟩
  rw [hmessage]
  simp only [List.append_assoc, List.prefix_append_right_inj, List.prefix_append]

end Reader

end Json

end PicoDB
