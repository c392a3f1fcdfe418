import Mathlib.Data.List.DropRight
import PicoDB.JsonText
import PicoDB.JsonValues

/-!
# PicoDB.JsonWriter — `Json::StyledWriter` on all values

`PicoDB.Json` has the writer as messages use it, on objects of strings. Here it
writes whatever a `Json::Value` holds, arrays on one line where they fit.

* `parse_write_value`: what is written is read back.
* `write_strings`: on objects of strings it is the writer of `PicoDB.Json`.

How the reader takes a piece of text does not depend on the line it stands on,
so the proof goes through `Text`, `ElementsText` and `MembersText`, which have
any blanks between the tokens, and `Adds`, which says what a step of the writer
puts behind the document.
-/

namespace PicoDB

namespace Json

namespace Styled

/-- `StyledWriter`. -/
structure Writer extends StyledWriter where
  addChildValues_ : Bool := false
  childValues_ : List Bytes := []

/-- What only adds to the document, or changes the indentation. -/
def Writer.on (f : StyledWriter → StyledWriter) (w : Writer) : Writer :=
  { w with toStyledWriter := f w.toStyledWriter }

theorem on_congr {f g : StyledWriter → StyledWriter} {w : Writer}
    (h : f w.toStyledWriter = g w.toStyledWriter) : w.on f = w.on g := by
  rw [Writer.on, Writer.on, h]

def rightMargin_ : Nat := 74

/-- `pushValue`. -/
def pushValue (value : Bytes) (w : Writer) : Writer :=
  if w.addChildValues_ then { w with childValues_ := w.childValues_ ++ [value] }
  else w.on (.append value)

/-- An array or an object that is not empty. -/
def hasChildren : Value → Bool
  | .arrayValue elements => !elements.isEmpty
  | .objectValue members => !members.isEmpty
  | _ => false

/-- `isMultineArray`; `writeEach` writes the elements, each on its own. -/
def isMultineArray (elements : List Value) (writeEach : Writer → Writer) (w : Writer) :
    Bool × Writer :=
  let w := { w with childValues_ := [] }
  if rightMargin_ ≤ elements.length * 3 || elements.any hasChildren then (true, w)
  else
    let w := { writeEach { w with addChildValues_ := true } with addChildValues_ := false }
    let lineLength := 4 + (elements.length - 1) * 2 + (w.childValues_.map List.length).sum
    (rightMargin_ ≤ lineLength, w)

/-- The loop of `writeArrayValue` over `childValues_`, each on a line. -/
def writeLines : List Bytes → StyledWriter → StyledWriter
  | [], w => w
  | value :: values, w =>
    let w := w.writeWithIndent value
    if values.isEmpty then w else writeLines values (w.append (ascii ","))

/-- The loop of `writeArrayValue` over `childValues_`, on one line. -/
def writeOnLine (values : List Bytes) (w : StyledWriter) : StyledWriter :=
  ((w.append (ascii "[ ")).append ((ascii ", ").intercalate values)).append (ascii " ]")

/-- `writeArrayValue`, on an array that is not empty; `writeElements` writes its
elements, each on lines of its own. -/
def writeArrayValue (elements : List Value) (writeEach writeElements : Writer → Writer)
    (w : Writer) : Writer :=
  let (isArrayMultiLine, w) := isMultineArray elements writeEach w
  if isArrayMultiLine then
    let hasChildValue := !w.childValues_.isEmpty
    let w := w.on fun w => (w.writeWithIndent (ascii "[")).indent
    let w := if hasChildValue then w.on (writeLines w.childValues_) else writeElements w
    w.on fun w => w.unindent.writeWithIndent (ascii "]")
  else w.on (writeOnLine w.childValues_)

section Write

variable (doubleToString : UInt64 → Bytes)

mutual

/-- `writeValue`. -/
def writeValue : Value → Writer → Writer
  | .nullValue, w => pushValue (ascii "null") w
  | .intValue value, w => pushValue (Reader.printInt value) w
  | .uintValue value, w => pushValue (convertToString value) w
  | .realValue value, w => pushValue (doubleToString value) w
  | .stringValue value, w => pushValue (valueToQuotedString value) w
  | .booleanValue value, w => pushValue (if value then ascii "true" else ascii "false") w
  | .arrayValue elements, w =>
    if elements.isEmpty then pushValue (ascii "[]") w
    else writeArrayValue elements (writeEach elements) (writeElements elements) w
  | .objectValue members, w =>
    if members.isEmpty then pushValue (ascii "\x7b\x7d") w
    else
      (writeMembers members (w.on fun w => (w.writeWithIndent (ascii "\x7b")).indent)).on fun w =>
        w.unindent.writeWithIndent (ascii "\x7d")

/-- The loop of `isMultineArray` that writes the elements. -/
def writeEach : List Value → Writer → Writer
  | [], w => w
  | element :: elements, w => writeEach elements (writeValue element w)

/-- The loop of `writeArrayValue` over the elements. -/
def writeElements : List Value → Writer → Writer
  | [], w => w
  | element :: elements, w =>
    let w := writeValue element (w.on .writeIndent)
    if elements.isEmpty then w else writeElements elements (w.on (.append (ascii ",")))

/-- The loop of `writeValue` over the members. -/
def writeMembers : List (Bytes × Value) → Writer → Writer
  | [], w => w
  | (name, childValue) :: members, w =>
    let w := writeValue childValue
      (w.on fun w => (w.writeWithIndent (valueToQuotedString name)).append (ascii " : "))
    if members.isEmpty then w else writeMembers members (w.on (.append (ascii ",")))

end

/-- `write`. -/
def write (root : Value) : Bytes :=
  ((writeValue doubleToString root {}).on (.append (ascii "\n"))).document_

end Write

/-! ## What is read back -/

mutual

/-- A value as the reader gives it back: numbers by their size, and strings up to
their first NUL. -/
def asRead : Value → Value
  | .intValue i => Reader.ofInt i
  | .uintValue n => Reader.ofInt n
  | .stringValue s => .stringValue (cString s)
  | .arrayValue elements => .arrayValue (elementsAsRead elements)
  | .objectValue members => .objectValue (membersAsRead members)
  | .nullValue => .nullValue
  | .realValue bits => .realValue bits
  | .booleanValue b => .booleanValue b

def elementsAsRead : List Value → List Value
  | [] => []
  | x :: xs => asRead x :: elementsAsRead xs

def membersAsRead : List (Bytes × Value) → List (Bytes × Value)
  | [] => []
  | (name, x) :: ms => (name, asRead x) :: membersAsRead ms

end

section Texts

open Reader

variable {scanDouble : Bytes → Option UInt64}

/-- A text that is read as the value, wherever it stands. -/
structure Text (scanDouble : Bytes → Option UInt64) (text : Bytes) (x : Value) : Prop where
  last : ∃ b, text.getLast? = some b ∧ b ≠ 32 ∧ b ≠ 10
  accepts : ∀ rest, EndsNumber rest → Accepts scanDouble .value (text ++ rest) x rest

/-- The text of the elements of an array that is not empty. -/
inductive ElementsText (scanDouble : Bytes → Option UInt64) : Bytes → List Value → Prop where
  | one {sp text : Bytes} {x : Value} (hsp : ∀ b ∈ sp, isSpace b = true)
      (h : Text scanDouble text x) : ElementsText scanDouble (sp ++ text) [x]
  | cons {sp text more : Bytes} {x : Value} {xs : List Value} (hsp : ∀ b ∈ sp, isSpace b = true)
      (h : Text scanDouble text x) (hmore : ElementsText scanDouble more xs) :
      ElementsText scanDouble (sp ++ (text ++ 44 :: more)) (x :: xs)

/-- The text of the members of an object that is not empty. -/
inductive MembersText (scanDouble : Bytes → Option UInt64) :
    Bytes → List (Bytes × Value) → Prop where
  | one {sp text name : Bytes} {x : Value} (hsp : ∀ b ∈ sp, isSpace b = true)
      (hname : (0 : Byte) ∉ name) (h : Text scanDouble text x) :
      MembersText scanDouble (sp ++ (valueToQuotedString name ++ (ascii " : " ++ text))) [(name, x)]
  | cons {sp text more name : Bytes} {x : Value} {ms : List (Bytes × Value)}
      (hsp : ∀ b ∈ sp, isSpace b = true) (hname : (0 : Byte) ∉ name) (h : Text scanDouble text x)
      (hmore : MembersText scanDouble more ms) :
      MembersText scanDouble
        (sp ++ (valueToQuotedString name ++ (ascii " : " ++ (text ++ 44 :: more))))
        ((name, x) :: ms)

theorem isNumberChar_of_isSpace {b : Byte} (h : isSpace b = true) : isNumberChar b = false := by
  simp only [isSpace, Bool.or_eq_true, beq_iff_eq] at h
  rcases h with ((rfl | rfl) | rfl) | rfl <;> rfl

theorem endsNumber_cons {c : Byte} (hc : isNumberChar c = false) (rest : Location) :
    EndsNumber (c :: rest) := by
  intro d hd
  cases hd
  exact hc

theorem endsNumber_spaces {sp : Bytes} (hsp : ∀ b ∈ sp, isSpace b = true) {c : Byte}
    (hc : isNumberChar c = false) (rest : Location) : EndsNumber (sp ++ c :: rest) := by
  cases sp with
  | nil => exact endsNumber_cons hc rest
  | cons b sp => exact endsNumber_cons (isNumberChar_of_isSpace (hsp b List.mem_cons_self)) _

/-- Between the brackets. -/
theorem ElementsText.accepts {t : Bytes} {xs : List Value} (h : ElementsText scanDouble t xs)
    {sp : Bytes} (hend : ∀ b ∈ sp, isSpace b = true) (acc : List Value) (rest : Location) :
    Accepts scanDouble (.elements acc) (t ++ (sp ++ 93 :: rest))
      (.arrayValue (acc ++ xs)) rest := by
  induction h generalizing acc with
  | @one sp' text x hsp h =>
    have hbracket := skipCommentTokens_oneChar hend (c := 93) (by decide) rfl rest
    have hx := accepts_skip hsp (h.accepts _ (endsNumber_spaces hend (c := 93) (by decide) rest))
    rw [← List.append_assoc] at hx
    have haccepts : Accepts scanDouble (.elements acc) _ _ _ :=
      .lastElement hx (by rw [hbracket])
    rwa [hbracket] at haccepts
  | @cons sp' text more x xs hsp h hmore ih =>
    have hnone : ∀ b ∈ ([] : Bytes), isSpace b = true := List.forall_mem_nil _
    have hcomma : ∀ s, skipCommentTokens (44 :: s) = ⟨.tokenArraySeparator, 44 :: s, s⟩ := fun s =>
      skipCommentTokens_oneChar hnone (by decide) rfl s
    have hx := accepts_skip hsp (h.accepts (44 :: (more ++ (sp ++ 93 :: rest)))
      (endsNumber_cons (c := 44) (by decide) _))
    have hrest := ih (acc ++ [x])
    rw [List.append_assoc, List.singleton_append] at hrest
    have haccepts : Accepts scanDouble (.elements acc) _ (.arrayValue (acc ++ x :: xs)) rest :=
      .element hx (by rw [hcomma]) (by rw [hcomma]; exact hrest)
    simpa only [List.append_assoc, List.cons_append] using haccepts

/-- Between the braces. -/
theorem MembersText.accepts {t : Bytes} {ms : List (Bytes × Value)}
    (h : MembersText scanDouble t ms) {sp : Bytes} (hend : ∀ b ∈ sp, isSpace b = true)
    (name₀ : Bytes) {acc : List (Bytes × Value)} (rest : Location)
    (hkeys : (acc.map Prod.fst ++ ms.map Prod.fst).Pairwise (· < ·)) :
    Accepts scanDouble (.members name₀ acc) (t ++ (sp ++ 125 :: rest)) (.objectValue (acc ++ ms))
      rest := by
  have hput : ∀ {name : Bytes} (x : Value) {ms : List (Bytes × Value)} {acc : List (Bytes × Value)},
      (0 : Byte) ∉ name →
      (acc.map Prod.fst ++ ((name, x) :: ms).map Prod.fst).Pairwise (· < ·) →
      putMember name x acc = acc ++ [(name, x)] := by
    intro name x ms acc hname hkeys
    have hsame := cString_of_zero_notMem hname
    have hlt : ∀ a ∈ acc, a.1 < cString name := by
      intro a ha
      rw [hsame]
      exact (List.pairwise_append.mp hkeys).2.2 _ (List.mem_map_of_mem ha) _ (by simp)
    rw [putMember_concat x hlt, hsame]
  have hblank : ∀ b ∈ ([32] : Bytes), isSpace b = true := forall_isSpace (by decide)
  induction h generalizing acc name₀ with
  | @one sp' text name x hsp hname h =>
    have hbrace := skipCommentTokens_oneChar hend (c := 125) (by decide) rfl rest
    have htoken := readToken_oneChar hend (c := 125) (by decide) rfl rest
    obtain ⟨htype, hd, hcolon, hvalue⟩ := member_head hsp name (text ++ (sp ++ 125 :: rest))
    have hx := accepts_skip hblank
      (h.accepts _ (endsNumber_spaces hend (c := 125) (by decide) rest))
    rw [List.singleton_append, ← hvalue] at hx
    have haccepts : Accepts scanDouble (.members name₀ acc) _ _ _ :=
      .lastMember htype hd hcolon hx (Or.inl (by rw [htoken])) (by rw [hbrace])
    rw [hbrace, cString_of_zero_notMem hname, hput x hname hkeys] at haccepts
    simpa only [List.append_assoc] using haccepts
  | @cons sp' text more name x ms hsp hname h hmore ih =>
    have hnone : ∀ b ∈ ([] : Bytes), isSpace b = true := List.forall_mem_nil _
    have hcomma : ∀ s, skipCommentTokens (44 :: s) = ⟨.tokenArraySeparator, 44 :: s, s⟩ := fun s =>
      skipCommentTokens_oneChar hnone (by decide) rfl s
    have htoken : ∀ s, readToken (44 :: s) = ⟨.tokenArraySeparator, 44 :: s, s⟩ := fun s =>
      readToken_oneChar hnone (by decide) rfl s
    obtain ⟨htype, hd, hcolon, hvalue⟩ :=
      member_head hsp name (text ++ 44 :: (more ++ (sp ++ 125 :: rest)))
    have hx := accepts_skip hblank (h.accepts (44 :: (more ++ (sp ++ 125 :: rest)))
      (endsNumber_cons (c := 44) (by decide) _))
    rw [List.singleton_append, ← hvalue] at hx
    have hrest := @ih name (acc ++ [(name, x)]) (by simpa using hkeys)
    rw [List.append_assoc, List.singleton_append] at hrest
    have haccepts : Accepts scanDouble (.members name₀ acc) _
        (.objectValue (acc ++ (name, x) :: ms)) rest :=
      .member htype hd hcolon hx (Or.inr (Or.inl (by rw [htoken])))
        (by rw [hcomma]; simp)
        (by rw [hcomma, cString_of_zero_notMem hname, hput x hname hkeys]; exact hrest)
    simpa only [List.append_assoc, List.cons_append] using haccepts

/-! ## Values that are written in one piece -/

/-- The text of a number that is read back. -/
theorem text_number {c : Byte} {s : Bytes} {x : Value} (hc : StartsNumber c)
    (hs : ∀ b ∈ s, isNumberChar b = true)
    (hx : ∀ t : Token, t.text = c :: s → decodeNumber scanDouble t = .ok x) :
    Text scanDouble (c :: s) x := by
  constructor
  · obtain ⟨b, hb⟩ : ∃ b, (c :: s).getLast? = some b := ⟨_, List.getLast?_eq_some_getLast (by simp)⟩
    refine ⟨b, hb, ?_⟩
    have hnumber : isNumberChar b = true := by
      rcases List.mem_cons.mp (List.mem_of_getLast? hb) with rfl | hmem
      · rcases hc with hc | rfl
        · exact (digit_plain hc).1
        · rfl
      · exact hs b hmem
    constructor
    · rintro rfl
      exact absurd hnumber (by decide)
    · rintro rfl
      exact absurd hnumber (by decide)
  · intro rest hrest
    have htoken := readToken_number hc hs hrest
    have hskip : skipCommentTokens (c :: s ++ rest) =
        { type_ := .tokenNumber, start_ := c :: s ++ rest, end_ := rest } := by
      rw [skipCommentTokens_of_ne (by rw [htoken]; simp), htoken]
    have haccepts : Accepts scanDouble .value (c :: s ++ rest) x _ :=
      .number (by rw [hskip]) (hx _ (by rw [hskip, text_of_append]))
    rwa [hskip] at haccepts

/-- The digits of a number are a text of it. -/
theorem text_integer {isNegative : Bool} {n : Nat} (h : n ≤ maxIntegerValue isNegative) :
    Text scanDouble (sign isNegative ++ convertToString n) (ofInt (signed isNegative n)) := by
  have hread : Decimal.read (convertToString n) = some n := Decimal.read_print n
  obtain ⟨c, s, htext, hc, hs⟩ := Reader.text_number isNegative hread
  rw [htext]
  refine text_number hc hs fun t ht => ?_
  rw [decodeNumber_integer (ht.trans htext.symm) hread, if_pos h, integer_eq h]

/-- What is printed of an `Int` is one. -/
theorem text_printInt {i : Int} (hlo : -2 ^ 63 ≤ i) (hhi : i < 2 ^ 64) :
    Text scanDouble (printInt i) (ofInt i) := by
  by_cases hneg : i < 0
  · have htext := @text_integer scanDouble true i.natAbs (show i.natAbs ≤ 2 ^ 63 by omega)
    rw [show signed true i.natAbs = i by simp only [signed, if_true]; omega] at htext
    rw [printInt, if_pos hneg]
    exact htext
  · have htext := @text_integer scanDouble false i.natAbs (show i.natAbs ≤ 2 ^ 64 - 1 by omega)
    rw [show signed false i.natAbs = i by
      simp only [signed, Bool.false_eq_true, if_false]; omega] at htext
    rw [printInt, if_neg hneg]
    exact htext

/-- A quoted string is a text of it up to its first NUL. -/
theorem text_string (v : Bytes) :
    Text scanDouble (valueToQuotedString v) (.stringValue (cString v)) := by
  constructor
  · have hlast := StyledWriter.getLast_valueToQuotedString [] v
    exact ⟨34, hlast, by decide, by decide⟩
  · intro rest _
    exact accepts_quoted (List.forall_mem_nil _) v rest

/-- A text that is one token to the reader, and a double. -/
def IsDoubleText (text : Bytes) : Prop :=
  ∃ c s, text = c :: s ∧ StartsNumber c ∧ (∀ b ∈ s, isNumberChar b = true) ∧ isDouble text = true

/-- The text of a double that is read back. -/
def PrintsBack (scanDouble : Bytes → Option UInt64) (doubleToString : UInt64 → Bytes)
    (bits : UInt64) : Prop :=
  IsDoubleText (doubleToString bits) ∧ scanDouble (doubleToString bits) = some bits

theorem text_double {doubleToString : UInt64 → Bytes} {bits : UInt64}
    (h : PrintsBack scanDouble doubleToString bits) :
    Text scanDouble (doubleToString bits) (.realValue bits) := by
  obtain ⟨⟨c, s, htext, hc, hs, hdouble⟩, hscan⟩ := h
  rw [htext] at hdouble hscan ⊢
  refine text_number hc hs fun t ht => ?_
  rw [decodeNumber, ht, if_pos hdouble, decodeDouble, ht, hscan]

/-- What is pushed for a value without children. -/
def leafText (doubleToString : UInt64 → Bytes) : Value → Bytes
  | .nullValue => ascii "null"
  | .intValue i => printInt i
  | .uintValue n => convertToString n
  | .realValue bits => doubleToString bits
  | .stringValue s => valueToQuotedString s
  | .booleanValue b => if b then ascii "true" else ascii "false"
  | .arrayValue _ => ascii "[]"
  | .objectValue _ => ascii "\x7b\x7d"

theorem writeValue_leaf (doubleToString : UInt64 → Bytes) {v : Value} (h : hasChildren v = false)
    (w : Writer) : writeValue doubleToString v w = pushValue (leafText doubleToString v) w := by
  cases v with
  | arrayValue elements =>
    have hempty : elements.isEmpty = true := by simpa [hasChildren] using h
    rw [writeValue, if_pos hempty, leafText]
  | objectValue members =>
    have hempty : members.isEmpty = true := by simpa [hasChildren] using h
    rw [writeValue, if_pos hempty, leafText]
  | _ => rfl

/-- What is written of a value without children is a text of it. -/
theorem text_leaf {doubleToString : UInt64 → Bytes} {v : Value} (h : hasChildren v = false)
    (hv : v.Valid fun _ => True)
    (hd : ∀ bits, v = .realValue bits → PrintsBack scanDouble doubleToString bits) :
    Text scanDouble (leafText doubleToString v) (asRead v) := by
  have hlast : ∀ {text : Bytes} {b : Byte} (p : Bytes), text = p ++ [b] → b ≠ 32 → b ≠ 10 →
      ∃ b, text.getLast? = some b ∧ b ≠ 32 ∧ b ≠ 10 := by
    rintro text b p rfl h32 h10
    exact ⟨b, List.getLast?_concat, h32, h10⟩
  cases hv with
  | null => exact ⟨hlast (ascii "nul") rfl (by decide) (by decide), fun rest _ => .null rfl⟩
  | int hlo hhi => exact text_printInt hlo (by omega)
  | @uint n hn =>
    have htext := @text_printInt scanDouble n (by omega) (by omega)
    rwa [printInt, if_neg (by omega)] at htext
  | real bits => exact text_double (hd bits rfl)
  | @string s => exact text_string s
  | boolean b =>
    cases b with
    | true => exact ⟨hlast (ascii "tru") rfl (by decide) (by decide), fun rest _ => .true rfl⟩
    | false => exact ⟨hlast (ascii "fals") rfl (by decide) (by decide), fun rest _ => .false rfl⟩
  | @array xs =>
    have hempty : xs = [] := by simpa [hasChildren] using h
    subst hempty
    exact ⟨hlast (ascii "[") rfl (by decide) (by decide), fun rest _ => .array rfl (.noElement rfl)⟩
  | @object ms =>
    have hempty : ms = [] := by simpa [hasChildren] using h
    subst hempty
    exact ⟨hlast (ascii "\x7b") rfl (by decide) (by decide),
      fun rest _ => .object rfl (.noMember rfl)⟩

/-! ## Arrays and objects -/

theorem getLast?_append_of {text : Bytes} (h : ∃ b, text.getLast? = some b ∧ b ≠ 32 ∧ b ≠ 10)
    (l : Bytes) : ∃ b, (l ++ text).getLast? = some b ∧ b ≠ 32 ∧ b ≠ 10 := by
  obtain ⟨b, hb, hne⟩ := h
  exact ⟨b, by rw [List.getLast?_append, hb]; rfl, hne⟩

/-- Elements end neither with a space nor with a line end, so the next line is indented. -/
theorem ElementsText.last {t : Bytes} {xs : List Value} (h : ElementsText scanDouble t xs) :
    ∃ b, t.getLast? = some b ∧ b ≠ 32 ∧ b ≠ 10 := by
  induction h with
  | one _ h => exact getLast?_append_of h.last _
  | @cons sp text more x xs _ _ _ ih =>
    have hmore := getLast?_append_of ih (sp ++ (text ++ [44]))
    simpa only [List.append_assoc, List.singleton_append] using hmore

theorem MembersText.last {t : Bytes} {ms : List (Bytes × Value)} (h : MembersText scanDouble t ms) :
    ∃ b, t.getLast? = some b ∧ b ≠ 32 ∧ b ≠ 10 := by
  induction h with
  | @one sp text name x _ _ h =>
    have htext := getLast?_append_of h.last (sp ++ (valueToQuotedString name ++ ascii " : "))
    simpa only [List.append_assoc] using htext
  | @cons sp text more name x ms _ _ _ _ ih =>
    have hmore := getLast?_append_of ih
      (sp ++ (valueToQuotedString name ++ (ascii " : " ++ (text ++ [44]))))
    simpa only [List.append_assoc, List.singleton_append] using hmore

/-- Elements in brackets are a text of the array. -/
theorem text_array {t : Bytes} {xs : List Value} (h : ElementsText scanDouble t xs) {sp : Bytes}
    (hsp : ∀ b ∈ sp, isSpace b = true) :
    Text scanDouble (91 :: (t ++ (sp ++ [93]))) (.arrayValue xs) := by
  constructor
  · refine ⟨93, ?_, by decide, by decide⟩
    rw [← List.append_assoc, ← List.cons_append]
    exact List.getLast?_concat
  · intro rest _
    have hopen := skipCommentTokens_oneChar (List.forall_mem_nil _) (c := 91) (by decide) rfl
      (t ++ (sp ++ 93 :: rest))
    rw [List.nil_append] at hopen
    have helements := accepts_array (h.accepts hsp [] rest)
    have haccepts : Accepts scanDouble .value (91 :: (t ++ (sp ++ 93 :: rest))) (.arrayValue xs)
        rest :=
      .array (by rw [hopen]) (by rw [hopen]; exact helements)
    simpa only [List.append_assoc, List.cons_append, List.nil_append] using haccepts

/-- Members in braces are a text of the object, if their names stand in order. -/
theorem text_object {t : Bytes} {ms : List (Bytes × Value)} (h : MembersText scanDouble t ms)
    (hkeys : (ms.map Prod.fst).Pairwise (· < ·)) {sp : Bytes} (hsp : ∀ b ∈ sp, isSpace b = true) :
    Text scanDouble (123 :: (t ++ (sp ++ [125]))) (.objectValue ms) := by
  constructor
  · refine ⟨125, ?_, by decide, by decide⟩
    rw [← List.append_assoc, ← List.cons_append]
    exact List.getLast?_concat
  · intro rest _
    have hopen := skipCommentTokens_brace (t ++ (sp ++ 125 :: rest))
    have hmembers := @MembersText.accepts scanDouble _ _ h _ hsp [] [] rest hkeys
    have haccepts : Accepts scanDouble .value (123 :: (t ++ (sp ++ 125 :: rest))) (.objectValue ms)
        rest :=
      .object (by rw [hopen]) (by rw [hopen]; exact hmembers)
    simpa only [List.append_assoc, List.cons_append, List.nil_append] using haccepts

end Texts

/-! ## What the writer adds -/

section Adds

open Reader

/-- The document ends in neither a blank nor a line end. -/
def Fresh (w : StyledWriter) : Prop := ∃ b, w.document_.getLast? = some b ∧ b ≠ 32 ∧ b ≠ 10

/-- What is written next stands where the document ends. -/
def Opened (w : StyledWriter) : Prop := w.writeIndent = w

/-- The indentation of so many levels. -/
def Indented (k : Nat) (w : StyledWriter) : Prop := w.indentString_ = List.replicate (3 * k) 32

theorem opened_of_blank {w : StyledWriter} (h : w.document_.getLast? = some 32) : Opened w := by
  simp [Opened, StyledWriter.writeIndent, h]

/-- The indentation begins a new line, where there is not one yet. -/
theorem Fresh.writeIndent {w : StyledWriter} (h : Fresh w) :
    w.writeIndent = w.append (10 :: w.indentString_) := by
  obtain ⟨b, hb, h32, h10⟩ := h
  simp [StyledWriter.writeIndent, hb, h32, h10, StyledWriter.append, ascii]

theorem fresh_append {text : Bytes} (h : ∃ b, text.getLast? = some b ∧ b ≠ 32 ∧ b ≠ 10)
    (w : StyledWriter) : Fresh (w.append text) := getLast?_append_of h w.document_

/-- At the end of an indentation the next thing can be written. -/
theorem Fresh.opened {k : Nat} {w : StyledWriter} (h : Fresh w) (hk : Indented (k + 1) w) :
    Opened w.writeIndent := by
  rw [h.writeIndent]
  refine opened_of_blank ?_
  have hindent : (10 : Byte) :: w.indentString_ =
      (10 :: List.replicate (3 * k + 2) 32) ++ [32] := by
    rw [hk, show 3 * (k + 1) = (3 * k + 2) + 1 by ring, List.replicate_succ', List.cons_append]
  rw [StyledWriter.append_document, hindent, ← List.append_assoc]
  exact List.getLast?_concat

theorem Indented.indent {k : Nat} {w : StyledWriter} (h : Indented k w) :
    Indented (k + 1) w.indent := by
  rw [Indented, StyledWriter.indent, h, show ascii "   " = List.replicate 3 32 from rfl,
    List.replicate_append_replicate]
  congr 1

theorem Indented.unindent {k : Nat} {w : StyledWriter} (h : Indented (k + 1) w) :
    Indented k w.unindent := by
  rw [Indented, StyledWriter.unindent, h, List.length_replicate, List.take_replicate,
    show min (3 * (k + 1) - 3) (3 * (k + 1)) = 3 * k by omega]

theorem Indented.spaces {k : Nat} {w : StyledWriter} (h : Indented k w) :
    ∀ b ∈ (10 : Byte) :: w.indentString_, isSpace b = true := by
  refine List.forall_mem_cons.mpr ⟨rfl, fun b hb => ?_⟩
  rw [h] at hb
  rw [List.eq_of_mem_replicate hb]
  rfl

/-- A step of the writer that adds a text. -/
structure Adds (w : Writer) (text : Bytes) (w' : Writer) : Prop where
  document_ : w'.document_ = w.document_ ++ text
  indentString_ : w'.indentString_ = w.indentString_
  addChildValues_ : w'.addChildValues_ = w.addChildValues_

/-- What is added one after the other is added together. -/
theorem Adds.trans {w w' w'' : Writer} {a b : Bytes} (h : Adds w a w') (h' : Adds w' b w'') :
    Adds w (a ++ b) w'' :=
  ⟨by rw [h'.document_, h.document_, List.append_assoc], h'.indentString_.trans h.indentString_,
    h'.addChildValues_.trans h.addChildValues_⟩

theorem adds_append (text : Bytes) (w : Writer) : Adds w text (w.on (.append text)) :=
  ⟨rfl, rfl, rfl⟩

theorem adds_pushValue {w : Writer} (h : w.addChildValues_ = false) (value : Bytes) :
    Adds w value (pushValue value w) := by
  rw [pushValue, h, if_neg Bool.false_ne_true]
  exact adds_append value w

theorem Adds.fresh {w w' : Writer} {text : Bytes} (h : Adds w text w')
    (hlast : ∃ b, text.getLast? = some b ∧ b ≠ 32 ∧ b ≠ 10) : Fresh w'.toStyledWriter := by
  rw [Fresh, h.document_]
  exact getLast?_append_of hlast _

theorem Adds.indented {w w' : Writer} {text : Bytes} (h : Adds w text w') {k : Nat}
    (hk : Indented k w.toStyledWriter) : Indented k w'.toStyledWriter :=
  h.indentString_.trans hk

theorem adds_writeIndent {w : Writer} (h : Fresh w.toStyledWriter) :
    Adds w (10 :: w.indentString_) (w.on .writeIndent) := by
  have hstep : w.on .writeIndent = w.on (.append (10 :: w.indentString_)) := by
    simp only [Writer.on, h.writeIndent]
  rw [hstep]
  exact adds_append _ w

end Adds

/-! ## Loops of the writer -/

section Loops

open Reader

variable {scanDouble : Bytes → Option UInt64} {doubleToString : UInt64 → Bytes}

theorem last_comma : ∃ b, (ascii ",").getLast? = some b ∧ b ≠ 32 ∧ b ≠ 10 :=
  ⟨44, rfl, by decide, by decide⟩

/-- Elements on lines of their own. -/
theorem writeLines_text {values : List Bytes} {xs : List Value}
    (h : List.Forall₂ (Text scanDouble) values xs) (hne : values ≠ []) {k : Nat} {w : StyledWriter}
    (hfresh : Fresh w) (hk : Indented k w) :
    ∃ t, ElementsText scanDouble t xs ∧ writeLines values w = w.append t := by
  induction h generalizing w with
  | nil => exact absurd rfl hne
  | @cons value x values xs htext hrest ih =>
    have hline : w.writeWithIndent value = (w.append (10 :: w.indentString_)).append value := by
      rw [StyledWriter.writeWithIndent, hfresh.writeIndent]
    have happend : ∀ (w : StyledWriter) (a b : Bytes),
        (w.append a).append b = w.append (a ++ b) := by
      intro w a b
      simp only [StyledWriter.append, List.append_assoc]
    cases values with
    | nil =>
      cases hrest
      refine ⟨_, .one hk.spaces htext, ?_⟩
      rw [writeLines, hline, happend]
      rfl
    | cons value' values =>
      obtain ⟨t, ht, hw⟩ := ih (List.cons_ne_nil _ _)
        (w := ((w.append (10 :: w.indentString_)).append value).append (ascii ","))
        (fresh_append last_comma _) hk
      refine ⟨_, .cons hk.spaces htext ht, ?_⟩
      rw [writeLines, hline]
      rw [if_neg (by simp), hw, happend, happend, happend, show ascii "," = [44] from rfl]
      simp only [List.singleton_append]

/-- Elements on one line. -/
theorem writeOnLine_text {values : List Bytes} {xs : List Value}
    (h : List.Forall₂ (Text scanDouble) values xs) (hne : values ≠ []) :
    ElementsText scanDouble ([32] ++ (ascii ", ").intercalate values) xs := by
  have hblank : ∀ b ∈ ([32] : Bytes), isSpace b = true := forall_isSpace (by decide)
  induction h with
  | nil => exact absurd rfl hne
  | @cons value x values xs htext hrest ih =>
    cases values with
    | nil =>
      cases hrest
      have hone : ElementsText scanDouble ([32] ++ value) [x] := .one hblank htext
      simpa [List.intercalate] using hone
    | cons value' values =>
      have hmore := ih (List.cons_ne_nil _ _)
      have hcons : ElementsText scanDouble
          ([32] ++ (value ++ 44 :: ([32] ++ (ascii ", ").intercalate (value' :: values))))
          (x :: xs) := .cons hblank htext hmore
      simpa [List.intercalate, show ascii ", " = [44, 32] from rfl] using hcons

variable (scanDouble doubleToString) in
/-- The value is written at the end of a document, as what it is read as. -/
def Writes (x : Value) : Prop :=
  ∀ (k : Nat) (w : Writer), w.addChildValues_ = false → Opened w.toStyledWriter →
    Indented k w.toStyledWriter →
    ∃ text, Text scanDouble text (asRead x) ∧ Adds w text (writeValue doubleToString x w)

/-- Elements on lines of their own are written as their texts, with commas between them. -/
theorem writeElements_text {xs : List Value} (hne : xs ≠ [])
    (hwrites : ∀ x ∈ xs, Writes scanDouble doubleToString x) {k : Nat} {w : Writer}
    (hadd : w.addChildValues_ = false) (hfresh : Fresh w.toStyledWriter)
    (hk : Indented (k + 1) w.toStyledWriter) :
    ∃ t, ElementsText scanDouble t (elementsAsRead xs) ∧
      Adds w t (writeElements doubleToString xs w) := by
  induction xs generalizing w with
  | nil => exact absurd rfl hne
  | cons x xs ih =>
    have hindent := adds_writeIndent hfresh
    obtain ⟨text, htext, hvalue⟩ := hwrites x List.mem_cons_self (k + 1) (w.on .writeIndent)
      (hindent.addChildValues_.trans hadd) (hfresh.opened hk) (hindent.indented hk)
    have hfirst := hindent.trans hvalue
    rw [writeElements]
    cases xs with
    | nil => exact ⟨_, .one hk.spaces htext, hfirst⟩
    | cons x' xs =>
      have hcomma := hfirst.trans (adds_append (ascii ",") _)
      obtain ⟨t, ht, hrest⟩ := ih (List.cons_ne_nil _ _)
        (fun y hy => hwrites y (List.mem_cons_of_mem x hy)) (hcomma.addChildValues_.trans hadd)
        (fresh_append last_comma _) (hcomma.indented hk)
      refine ⟨_, .cons hk.spaces htext ht, ?_⟩
      rw [if_neg (by simp)]
      have hall := hcomma.trans hrest
      simpa only [List.append_assoc, show ascii "," = [44] from rfl, List.singleton_append]
        using hall

/-- So are members, each with its name in front. -/
theorem writeMembers_text {ms : List (Bytes × Value)} (hne : ms ≠ [])
    (hnames : ∀ m ∈ ms, (0 : Byte) ∉ m.1)
    (hwrites : ∀ m ∈ ms, Writes scanDouble doubleToString m.2) {k : Nat} {w : Writer}
    (hadd : w.addChildValues_ = false) (hfresh : Fresh w.toStyledWriter)
    (hk : Indented k w.toStyledWriter) :
    ∃ t, MembersText scanDouble t (membersAsRead ms) ∧
      Adds w t (writeMembers doubleToString ms w) := by
  induction ms generalizing w with
  | nil => exact absurd rfl hne
  | cons m ms ih =>
    obtain ⟨name, x⟩ := m
    have hname : (0 : Byte) ∉ name := hnames _ List.mem_cons_self
    have hhead : Adds w (10 :: w.indentString_ ++ (valueToQuotedString name ++ ascii " : "))
        (w.on fun w => (w.writeWithIndent (valueToQuotedString name)).append (ascii " : ")) := by
      have hindent := adds_writeIndent hfresh
      have hquoted := (hindent.trans (adds_append (valueToQuotedString name) _)).trans
        (adds_append (ascii " : ") _)
      rw [List.append_assoc] at hquoted
      exact hquoted
    have hopened : Opened
        (w.on fun w => (w.writeWithIndent (valueToQuotedString name)).append
          (ascii " : ")).toStyledWriter := by
      refine opened_of_blank ?_
      have hblank : (w.on fun w => (w.writeWithIndent (valueToQuotedString name)).append
          (ascii " : ")).document_ =
            ((w.writeWithIndent (valueToQuotedString name)).document_ ++ [32, 58]) ++ [32] := by
        simp [Writer.on, StyledWriter.append, ascii]
      rw [hblank]
      exact List.getLast?_concat
    obtain ⟨text, htext, hvalue⟩ := hwrites _ List.mem_cons_self k _
      (hhead.addChildValues_.trans hadd) hopened (hhead.indented hk)
    have hfirst := hhead.trans hvalue
    rw [writeMembers]
    cases ms with
    | nil =>
      refine ⟨_, .one hk.spaces hname htext, ?_⟩
      rw [if_pos List.isEmpty_nil]
      simpa only [List.append_assoc] using hfirst
    | cons m' ms =>
      have hcomma := hfirst.trans (adds_append (ascii ",") _)
      obtain ⟨t, ht, hrest⟩ := ih (List.cons_ne_nil _ _)
        (fun n hn => hnames n (List.mem_cons_of_mem _ hn))
        (fun n hn => hwrites n (List.mem_cons_of_mem _ hn)) (hcomma.addChildValues_.trans hadd)
        (fresh_append last_comma _) (hcomma.indented hk)
      refine ⟨_, .cons hk.spaces hname htext ht, ?_⟩
      rw [if_neg (by simp)]
      have hall := hcomma.trans hrest
      simpa only [List.append_assoc, show ascii "," = [44] from rfl, List.singleton_append]
        using hall

/-- Values without children are put aside as their texts, when the writer is told to. -/
theorem writeEach_eq {xs : List Value} (hleaf : ∀ x ∈ xs, hasChildren x = false) {w : Writer}
    (hadd : w.addChildValues_ = true) :
    writeEach doubleToString xs w =
      { w with childValues_ := w.childValues_ ++ xs.map (leafText doubleToString) } := by
  induction xs generalizing w with
  | nil => simp [writeEach]
  | cons x xs ih =>
    have hpush : writeValue doubleToString x w =
        { w with childValues_ := w.childValues_ ++ [leafText doubleToString x] } := by
      rw [writeValue_leaf doubleToString (hleaf x List.mem_cons_self), pushValue, if_pos hadd]
    have hrest := ih (fun y hy => hleaf y (List.mem_cons_of_mem x hy))
      (w := { w with childValues_ := w.childValues_ ++ [leafText doubleToString x] }) hadd
    rw [writeEach, hpush, hrest]
    simp only [List.append_assoc, List.map_cons, List.singleton_append]

/-- What `isMultineArray` decides on: the elements go on lines of their own, with
`childValues_` empty or the texts of all, or all of them go on one line. -/
theorem isMultineArray_cases {xs : List Value} {w : Writer} (hadd : w.addChildValues_ = false) :
    isMultineArray xs (writeEach doubleToString xs) w = (true, { w with childValues_ := [] }) ∨
      (∀ x ∈ xs, hasChildren x = false) ∧ ∃ isMultiLine,
        isMultineArray xs (writeEach doubleToString xs) w =
          (isMultiLine, { w with childValues_ := xs.map (leafText doubleToString) }) := by
  unfold isMultineArray
  by_cases hlong : (decide (rightMargin_ ≤ xs.length * 3) || xs.any hasChildren) = true
  · exact Or.inl (if_pos hlong)
  · right
    have hleaf : ∀ x ∈ xs, hasChildren x = false := by
      rw [Bool.not_eq_true, Bool.or_eq_false_iff] at hlong
      intro x hx
      simpa using List.any_eq_false.mp hlong.2 x hx
    refine ⟨hleaf, rightMargin_ ≤ 4 + (xs.length - 1) * 2 +
      ((xs.map (leafText doubleToString)).map List.length).sum, ?_⟩
    dsimp only
    rw [if_neg hlong, writeEach_eq hleaf rfl]
    simp only [List.nil_append, ← hadd]

/-- An opening bracket, and the level behind it. -/
theorem openBlock {k : Nat} {w : Writer} (hopened : Opened w.toStyledWriter)
    (hk : Indented k w.toStyledWriter) {c : Byte} (hc : c ≠ 32 ∧ c ≠ 10) :
    let w' := w.on fun w => (w.writeWithIndent [c]).indent
    w'.document_ = w.document_ ++ [c] ∧ Fresh w'.toStyledWriter ∧
      Indented (k + 1) w'.toStyledWriter := by
  have hline : w.writeWithIndent [c] = w.append [c] := by
    rw [StyledWriter.writeWithIndent, hopened]
  dsimp only [Writer.on]
  rw [hline]
  exact ⟨rfl, ⟨c, List.getLast?_concat, hc⟩, Indented.indent (w := w.append [c]) hk⟩

/-- A block: an opening bracket, what is written on the level behind it, and a
closing bracket on a line of its own. -/
theorem adds_block {k : Nat} {w w' : Writer} (hopened : Opened w.toStyledWriter)
    (hk : Indented k w.toStyledWriter) {c : Byte} (hc : c ≠ 32 ∧ c ≠ 10) (c' : Byte) {t : Bytes}
    (ht : ∃ b, t.getLast? = some b ∧ b ≠ 32 ∧ b ≠ 10)
    (h : Adds (w.on fun w => (w.writeWithIndent [c]).indent) t w') :
    Adds w (c :: (t ++ (10 :: w.indentString_ ++ [c'])))
      (w'.on fun w => w.unindent.writeWithIndent [c']) := by
  obtain ⟨hdocument, -, hlevel⟩ := openBlock hopened hk hc
  have hfresh : Fresh w'.unindent := h.fresh ht
  have hindent : w'.unindent.indentString_ = w.indentString_ :=
    (Indented.unindent (w := w'.toStyledWriter) (h.indented hlevel)).trans hk.symm
  have hline : w'.unindent.writeWithIndent [c'] =
      (w'.unindent.append (10 :: w.indentString_)).append [c'] := by
    rw [StyledWriter.writeWithIndent, hfresh.writeIndent, hindent]
  constructor
  · have hunindent : w'.unindent.document_ = w'.document_ := rfl
    dsimp only [Writer.on]
    rw [hline, StyledWriter.append_document, StyledWriter.append_document, hunindent, h.document_,
      hdocument]
    simp
  · dsimp only [Writer.on]
    rw [hline]
    exact hindent
  · exact h.addChildValues_

/-- An array on lines of its own. -/
theorem adds_lines {k : Nat} {w w' : Writer} (hopened : Opened w.toStyledWriter)
    (hk : Indented k w.toStyledWriter) {xs : List Value} {t : Bytes}
    (ht : ElementsText scanDouble t xs)
    (h : Adds (w.on fun w => (w.writeWithIndent (ascii "[")).indent) t w') :
    ∃ text, Text scanDouble text (.arrayValue xs) ∧
      Adds w text (w'.on fun w => w.unindent.writeWithIndent (ascii "]")) :=
  ⟨_, text_array ht hk.spaces, adds_block hopened hk (c := 91) (by decide) 93 ht.last h⟩

/-- An array on one line. -/
theorem adds_line {values : List Bytes} {xs : List Value}
    (h : List.Forall₂ (Text scanDouble) values xs) (hne : values ≠ []) (w : Writer) :
    ∃ text, Text scanDouble text (.arrayValue xs) ∧ Adds w text (w.on (writeOnLine values)) := by
  have hblank : ∀ b ∈ ([32] : Bytes), isSpace b = true := forall_isSpace (by decide)
  refine ⟨_, text_array (writeOnLine_text h hne) hblank, ?_⟩
  have hline : w.on (writeOnLine values) =
      w.on (.append (91 :: ([32] ++ (ascii ", ").intercalate values ++ ([32] ++ [93])))) := by
    simp [Writer.on, writeOnLine, StyledWriter.append, ascii]
  rw [hline]
  exact adds_append _ w

/-- An array that is not empty. -/
theorem writeArrayValue_text {xs : List Value} (hne : xs ≠ [])
    (htexts : ∀ x ∈ xs, hasChildren x = false →
      Text scanDouble (leafText doubleToString x) (asRead x))
    (hwrites : ∀ x ∈ xs, Writes scanDouble doubleToString x) {k : Nat} {w : Writer}
    (hadd : w.addChildValues_ = false) (hopened : Opened w.toStyledWriter)
    (hk : Indented k w.toStyledWriter) :
    ∃ text, Text scanDouble text (.arrayValue (elementsAsRead xs)) ∧
      Adds w text (writeArrayValue xs (writeEach doubleToString xs)
        (writeElements doubleToString xs) w) := by
  have hbracket : (91 : Byte) ≠ 32 ∧ (91 : Byte) ≠ 10 := by decide
  unfold writeArrayValue
  -- `childValues_` is all that the writer below differs in from `w`
  have hstart : ∀ {values : List Bytes} {w' : Writer} {t : Bytes},
      Adds { w with childValues_ := values } t w' → Adds w t w' := fun h =>
    ⟨h.document_, h.indentString_, h.addChildValues_⟩
  rcases @isMultineArray_cases doubleToString xs w hadd with
    hcase | ⟨hleaf, isMultiLine, hcase⟩
  · -- each element is written in its turn
    rw [hcase]
    have hopen := openBlock (w := { w with childValues_ := [] }) hopened hk hbracket
    obtain ⟨t, ht, helements⟩ := writeElements_text hne hwrites
      (w := { w with childValues_ := [] }.on fun w => (w.writeWithIndent (ascii "[")).indent) hadd
      hopen.2.1 hopen.2.2
    obtain ⟨text, htext, hadds⟩ := adds_lines (w := { w with childValues_ := [] }) hopened hk ht
      helements
    exact ⟨text, htext, hstart hadds⟩
  · rw [hcase]
    have hvalues : List.Forall₂ (Text scanDouble) (xs.map (leafText doubleToString))
        (elementsAsRead xs) := by
      clear hcase hwrites hne
      induction xs with
      | nil => exact .nil
      | cons x xs ih =>
        exact .cons (htexts x List.mem_cons_self (hleaf x List.mem_cons_self))
          (ih (fun y hy => htexts y (List.mem_cons_of_mem x hy))
            fun y hy => hleaf y (List.mem_cons_of_mem x hy))
    have hnonempty : xs.map (leafText doubleToString) ≠ [] := by simpa using hne
    generalize xs.map (leafText doubleToString) = values at hvalues hnonempty
    cases isMultiLine with
    | true =>
      have hopen := openBlock (w := { w with childValues_ := values }) hopened hk hbracket
      obtain ⟨t, ht, hlines⟩ := writeLines_text hvalues hnonempty hopen.2.1 hopen.2.2
      have helements := adds_append t
        ({ w with childValues_ := values }.on fun w => (w.writeWithIndent [91]).indent)
      rw [← on_congr hlines] at helements
      obtain ⟨text, htext, hadds⟩ := adds_lines (w := { w with childValues_ := values }) hopened hk
        ht helements
      have hsome : (!values.isEmpty) = true := by simpa using hnonempty
      refine ⟨text, htext, ?_⟩
      simp only [if_true, if_pos hsome]
      exact hstart hadds
    | false =>
      obtain ⟨text, htext, hadds⟩ := adds_line hvalues hnonempty { w with childValues_ := values }
      exact ⟨text, htext, hstart hadds⟩

end Loops

/-! ## Documents -/

/-- Every double in the value is one of these. -/
inductive Doubles (P : UInt64 → Prop) : Value → Prop where
  | null : Doubles P .nullValue
  | int (i : Int) : Doubles P (.intValue i)
  | uint (n : Nat) : Doubles P (.uintValue n)
  | real {bits : UInt64} (h : P bits) : Doubles P (.realValue bits)
  | string (s : Bytes) : Doubles P (.stringValue s)
  | boolean (b : Bool) : Doubles P (.booleanValue b)
  | array {xs : List Value} (h : ∀ x ∈ xs, Doubles P x) : Doubles P (.arrayValue xs)
  | object {ms : List (Bytes × Value)} (h : ∀ m ∈ ms, Doubles P m.2) : Doubles P (.objectValue ms)

/-- A weaker condition on the doubles holds as well. -/
theorem Doubles.mono {P Q : UInt64 → Prop} {v : Value} (h : Doubles P v)
    (hPQ : ∀ bits, P bits → Q bits) : Doubles Q v := by
  induction h with
  | null => exact .null
  | int i => exact .int i
  | uint n => exact .uint n
  | real h => exact .real (hPQ _ h)
  | string s => exact .string s
  | boolean b => exact .boolean b
  | array _ ih => exact .array ih
  | object _ ih => exact .object ih

section Documents

open Reader

variable {scanDouble : Bytes → Option UInt64} {doubleToString : UInt64 → Bytes}

theorem keys_membersAsRead (ms : List (Bytes × Value)) :
    (membersAsRead ms).map Prod.fst = ms.map Prod.fst := by
  induction ms with
  | nil => rfl
  | cons m ms ih => rw [membersAsRead, List.map_cons, List.map_cons, ih]

theorem writes_leaf {v : Value} (h : hasChildren v = false)
    (htext : Text scanDouble (leafText doubleToString v) (asRead v)) :
    Writes scanDouble doubleToString v := by
  intro k w hadd _ _
  rw [writeValue_leaf doubleToString h]
  exact ⟨_, htext, adds_pushValue hadd _⟩

theorem Doubles.leaf {P : UInt64 → Prop} {v : Value} (h : Doubles P v) :
    ∀ bits, v = .realValue bits → P bits := by
  rintro bits rfl
  cases h with
  | real h => exact h

/-- A value at any depth. -/
theorem writes_of_valid {v : Value} (hv : v.Valid fun _ => True)
    (hd : Doubles (PrintsBack scanDouble doubleToString) v) :
    Writes scanDouble doubleToString v := by
  have hleaf : ∀ {v : Value}, (v.Valid fun _ => True) →
      Doubles (PrintsBack scanDouble doubleToString) v → hasChildren v = false →
      Text scanDouble (leafText doubleToString v) (asRead v) :=
    fun hv hd h => text_leaf h hv hd.leaf
  induction hv with
  | array h ih =>
    rename_i xs
    by_cases hne : xs = []
    · subst hne
      exact writes_leaf rfl (hleaf (.array h) hd rfl)
    · cases hd with
      | array hdoubles =>
        intro k w hadd hopened hk
        rw [writeValue, if_neg (by simpa using hne)]
        exact writeArrayValue_text hne (fun x hx => hleaf (h x hx) (hdoubles x hx))
          (fun x hx => ih x hx (hdoubles x hx)) hadd hopened hk
  | object hkeys hzero h ih =>
    rename_i ms
    by_cases hne : ms = []
    · subst hne
      exact writes_leaf rfl (hleaf (.object hkeys hzero h) hd rfl)
    · cases hd with
      | object hdoubles =>
        intro k w hadd hopened hk
        have hbrace : (123 : Byte) ≠ 32 ∧ (123 : Byte) ≠ 10 := by decide
        have hopen := openBlock hopened hk hbrace
        obtain ⟨t, ht, hmembers⟩ := writeMembers_text hne hzero
          (fun m hm => ih m hm (hdoubles m hm))
          (w := w.on fun w => (w.writeWithIndent [123]).indent) hadd hopen.2.1 hopen.2.2
        have hkeys' : ((membersAsRead ms).map Prod.fst).Pairwise (· < ·) := by
          rwa [keys_membersAsRead]
        rw [writeValue, if_neg (by simpa using hne)]
        exact ⟨_, text_object ht hkeys' hk.spaces,
          adds_block hopened hk hbrace 125 ht.last hmembers⟩
  | null => exact writes_leaf rfl (hleaf .null hd rfl)
  | int hlo hhi => exact writes_leaf rfl (hleaf (.int hlo hhi) hd rfl)
  | uint h => exact writes_leaf rfl (hleaf (.uint h) hd rfl)
  | real bits => exact writes_leaf rfl (hleaf (.real bits) hd rfl)
  | string s => exact writes_leaf rfl (hleaf (.string s) hd rfl)
  | boolean b => exact writes_leaf rfl (hleaf (.boolean b) hd rfl)

/-- What is written, and then anything. -/
theorem accepts_write {v : Value} (hv : v.Valid fun _ => True)
    (hd : Doubles (PrintsBack scanDouble doubleToString) v) (junk : Bytes) :
    Accepts scanDouble .value (write doubleToString v ++ junk) (asRead v) (10 :: junk) := by
  obtain ⟨text, htext, hadds⟩ := writes_of_valid hv hd 0 {} rfl rfl rfl
  have hwrite : write doubleToString v = text ++ [10] := by
    rw [write, Writer.on, StyledWriter.append_document, hadds.document_]
    rfl
  rw [hwrite, List.append_assoc]
  exact htext.accepts _ (endsNumber_cons (by decide) junk)

/-! ## Writing again -/

/-- On the objects of messages the writer is the one of `PicoDB.Json`. -/
theorem writeMembers_strings (ms : List (Bytes × Bytes)) {w : Writer}
    (h : w.addChildValues_ = false) :
    writeMembers doubleToString (ms.map fun m => (m.1, .stringValue m.2)) w =
      w.on (StyledWriter.writeMembers ms) := by
  have hmember : ∀ (m : Bytes × Bytes) {w : Writer}, w.addChildValues_ = false →
      writeValue doubleToString (.stringValue m.2)
          (w.on fun w => (w.writeWithIndent (valueToQuotedString m.1)).append (ascii " : ")) =
        w.on fun w => ((w.writeWithIndent (valueToQuotedString m.1)).append (ascii " : ")).append
          (valueToQuotedString m.2) := by
    intro m w h
    rw [writeValue, pushValue, if_neg (by simpa [Writer.on] using h)]
    rfl
  induction ms generalizing w with
  | nil => rfl
  | cons m ms ih =>
    rw [List.map_cons, writeMembers, hmember m h]
    cases ms with
    | nil => rfl
    | cons m' ms =>
      rw [if_neg (by simp)]
      exact ih h

/-- On an object of strings this is the writer of `PicoDB.Json`. -/
theorem write_strings (ms : List (Bytes × Bytes)) :
    write doubleToString (.objectValue (ms.map fun m => (m.1, .stringValue m.2))) =
      StyledWriter.write ms := by
  rw [write, writeValue, StyledWriter.write, StyledWriter.writeObject]
  cases ms with
  | nil => rfl
  | cons m ms =>
    rw [if_neg (by simp), if_neg (List.cons_ne_nil _ _), writeMembers_strings _ rfl]
    rfl

end Documents

end Styled

end Json

end PicoDB
