import PicoDB.Record

/-!
# PicoDB.Json — the part of `third_party/json_cpp` that messages go through

`Json::Value` as `pico_message` reads it (`get`, `asString`), and
`Json::StyledWriter` on an object whose members are strings, which is all that
`convert_message_to_json` writes. `Json::Reader` is a parameter wherever a text
is parsed: `Reader` gives the root value of a text it accepts.

The file's result is `replicate_infix_write`: a run of `'#'` in a written
object is a run of `'#'` in one of the values, the writer itself neither adds
one nor breaks one.
-/

namespace PicoDB

namespace Json

/-! ## Values -/

/-- `Json::Value`, one constructor per `ValueType`; an object lists its members
by key, a double is kept as its bits. -/
inductive Value where
  | nullValue
  | intValue (i : Int)
  | uintValue (n : Nat)
  | realValue (bits : UInt64)
  | stringValue (s : Bytes)
  | booleanValue (b : Bool)
  | arrayValue (elements : List Value)
  | objectValue (members : List (Bytes × Value))

/-- `Json::Reader::parse`: the root, or nothing when parsing fails. -/
abbrev Reader := Bytes → Option Value

namespace Value

/-- `get(key, defaultValue)`; on anything but an object or null the
`JSON_ASSERT` of `operator[]` fails. -/
def get (root : Value) (key : Bytes) (defaultValue : Value) : Except Fault Value :=
  match root with
  | nullValue => .ok defaultValue
  | objectValue members => .ok ((members.lookup key).getD defaultValue)
  | _ => .error (.assertion .jsonObject)

/-- `asString`; a string comes back as a C string. -/
def asString : Value → Except Fault Bytes
  | nullValue => .ok []
  | stringValue s => .ok (cString s)
  | booleanValue true => .ok (ascii "true")
  | booleanValue false => .ok (ascii "false")
  | _ => .error (.exception .notConvertibleToString)

end Value

/-! ## `valueToQuotedString` -/

/-- `isControlCharacter`; `char` is signed, so bytes from `0x80` on are not. -/
def isControlCharacter (ch : Byte) : Bool := 0 < ch && ch ≤ 0x1F

/-- One upper-case hexadecimal digit. -/
def hexDigit (n : Nat) : Byte := if n < 10 then UInt8.ofNat (48 + n) else UInt8.ofNat (55 + n)

/-- The characters `strpbrk` looks for: `"`, `\`, `\b`, `\f`, `\n`, `\r`, `\t`. -/
def special : Bytes := [34, 92, 8, 12, 10, 13, 9]

/-- The `switch` of `valueToQuotedString`. -/
def escape (c : Byte) : Bytes :=
  if c = 34 then ascii "\\\""
  else if c = 92 then ascii "\\\\"
  else if c = 8 then ascii "\\b"
  else if c = 12 then ascii "\\f"
  else if c = 10 then ascii "\\n"
  else if c = 13 then ascii "\\r"
  else if c = 9 then ascii "\\t"
  else if isControlCharacter c then
    ascii "\\u00" ++ [hexDigit (c.toNat / 16), hexDigit (c.toNat % 16)]
  else [c]

/-- `valueToQuotedString`, with its shortcut for values that need no escape. -/
def valueToQuotedString (value : Bytes) : Bytes :=
  let c := cString value
  if c.all (fun b => !special.contains b && !isControlCharacter b) then
    ascii "\"" ++ c ++ ascii "\""
  else ascii "\"" ++ c.flatMap escape ++ ascii "\""

/-- The shortcut gives what the walk would give. -/
theorem valueToQuotedString_eq (value : Bytes) :
    valueToQuotedString value = ascii "\"" ++ (cString value).flatMap escape ++ ascii "\"" := by
  unfold valueToQuotedString
  dsimp only
  split
  · -- nothing to escape: every character is written as itself
    rename_i h
    have hid : ∀ b ∈ cString value, escape b = [b] := by
      intro b hb
      have hb' := List.all_eq_true.mp h b hb
      simp only [special, List.contains_cons, List.contains_nil, Bool.or_false, Bool.and_eq_true,
        Bool.not_eq_true', Bool.or_eq_false_iff, beq_eq_false_iff_ne] at hb'
      simp [escape, hb']
    have hmap : (cString value).flatMap escape = cString value := by
      rw [List.flatMap_congr hid, List.flatMap_singleton']
    rw [hmap]
  · rfl

/-- What one escape has of `'#'` and of NUL: itself, or nothing. -/
theorem escape_hash : escape hash = [hash] := by decide

theorem hexDigit_ne {n : Nat} (h : n < 16) : hexDigit n ≠ hash ∧ hexDigit n ≠ 0 := by
  have hall : ∀ m : Fin 16, hexDigit m ≠ hash ∧ hexDigit m ≠ 0 := by decide
  exact hall ⟨n, h⟩

theorem escape_of_ne_hash {c : Byte} (h : c ≠ hash) : escape c ≠ [] ∧ hash ∉ escape c := by
  unfold escape
  repeat' split
  all_goals first
    | exact ⟨by decide, by decide⟩
    | skip
  · -- `\u00` and two hexadecimal digits
    have h1 := hexDigit_ne (n := c.toNat / 16) (by have := c.toNat_lt; omega)
    have h2 := hexDigit_ne (n := c.toNat % 16) (by omega)
    have h0 : hash ∉ ascii "\\u00" := by decide
    refine ⟨by simp, ?_⟩
    simp [h0, h1.1.symm, h2.1.symm]
  · simpa using h.symm

theorem zero_notMem_escape {c : Byte} (h : c ≠ 0) : (0 : Byte) ∉ escape c := by
  unfold escape
  repeat' split
  all_goals first
    | decide
    | skip
  · have h1 := hexDigit_ne (n := c.toNat / 16) (by have := c.toNat_lt; omega)
    have h2 := hexDigit_ne (n := c.toNat % 16) (by omega)
    have h0 : (0 : Byte) ∉ ascii "\\u00" := by decide
    simp [h0, h1.2.symm, h2.2.symm]
  · simpa using h.symm

/-- Escaping neither makes nor breaks a run of `'#'`. -/
theorem replicate_infix_escape {k : Nat} (hk : 0 < k) (s : Bytes) :
    List.replicate k hash <:+: s.flatMap escape ↔ List.replicate k hash <:+: s :=
  Marker.replicate_infix_flatMap escape_hash (fun _ h => escape_of_ne_hash h) hk s

theorem zero_notMem_valueToQuotedString (value : Bytes) :
    (0 : Byte) ∉ valueToQuotedString value := by
  have hq : (0 : Byte) ∉ ascii "\"" := by decide
  have hbody : (0 : Byte) ∉ (cString value).flatMap escape := by
    intro h
    rcases List.mem_flatMap.mp h with ⟨c, hc, h0⟩
    exact zero_notMem_escape (fun hc0 => zero_notMem_cString value (hc0 ▸ hc)) h0
  rw [valueToQuotedString_eq]
  simp [hq, hbody]

/-! ## `StyledWriter` -/

/-- The part of the writer that an object of strings uses. -/
structure StyledWriter where
  document_ : Bytes := []
  indentString_ : Bytes := []

/-- The members of an object in the order of their keys, which is the order
the writer visits them in; `root[name] = value`. -/
def setMember (name value : Bytes) : List (Bytes × Bytes) → List (Bytes × Bytes)
  | [] => [(name, value)]
  | m :: ms =>
    if name = m.1 then (name, value) :: ms
    else if name < m.1 then (name, value) :: m :: ms
    else m :: setMember name value ms

namespace StyledWriter

/-- `document_ += text`. -/
def append (text : Bytes) (w : StyledWriter) : StyledWriter :=
  { w with document_ := w.document_ ++ text }

/-- `writeIndent`. -/
def writeIndent (w : StyledWriter) : StyledWriter :=
  match w.document_.getLast? with
  | none => w.append w.indentString_
  | some last =>
    if last = 32 then w
    else if last = 10 then w.append w.indentString_
    else (w.append (ascii "\n")).append w.indentString_

/-- `writeWithIndent`. -/
def writeWithIndent (value : Bytes) (w : StyledWriter) : StyledWriter :=
  w.writeIndent.append value

/-- `indent`: `indentSize_` is 3. -/
def indent (w : StyledWriter) : StyledWriter :=
  { w with indentString_ := w.indentString_ ++ ascii "   " }

/-- `unindent`. -/
def unindent (w : StyledWriter) : StyledWriter :=
  { w with indentString_ := w.indentString_.take (w.indentString_.length - 3) }

/-- The member loop of `writeValue`. -/
def writeMembers : List (Bytes × Bytes) → StyledWriter → StyledWriter
  | [], w => w
  | [m], w =>
    ((w.writeWithIndent (valueToQuotedString m.1)).append (ascii " : ")).append
      (valueToQuotedString m.2)
  | m :: ms, w =>
    writeMembers ms <|
      (((w.writeWithIndent (valueToQuotedString m.1)).append (ascii " : ")).append
        (valueToQuotedString m.2)).append (ascii ",")

/-- The object case of `writeValue`. -/
def writeObject (members : List (Bytes × Bytes)) (w : StyledWriter) : StyledWriter :=
  if members = [] then w.append (ascii "\x7b\x7d")
  else (writeMembers members (w.writeWithIndent (ascii "\x7b")).indent).unindent.writeWithIndent
    (ascii "\x7d")

/-- `write`. -/
def write (members : List (Bytes × Bytes)) : Bytes :=
  ((writeObject members {}).append (ascii "\n")).document_

/-! ## The text of an object -/

/-- What the writer adds for one member. -/
def memberText (indent : Bytes) (m : Bytes × Bytes) : Bytes :=
  ascii "\n" ++ indent ++ valueToQuotedString m.1 ++ ascii " : " ++ valueToQuotedString m.2

/-- What it adds for all of them. -/
def membersText (indent : Bytes) : List (Bytes × Bytes) → Bytes
  | [] => []
  | [m] => memberText indent m
  | m :: ms => memberText indent m ++ ascii "," ++ membersText indent ms

@[simp] theorem append_document (text : Bytes) (w : StyledWriter) :
    (w.append text).document_ = w.document_ ++ text := rfl

/-- After anything but a blank or a line end, `writeWithIndent` starts a line. -/
theorem writeWithIndent_of_getLast {w : StyledWriter} {b : Byte} (value : Bytes)
    (h : w.document_.getLast? = some b) (h32 : b ≠ 32) (h10 : b ≠ 10) :
    w.writeWithIndent value =
      { w with document_ := w.document_ ++ ascii "\n" ++ w.indentString_ ++ value } := by
  simp [writeWithIndent, writeIndent, h, h32, h10, append]

theorem getLast_valueToQuotedString (l value : Bytes) :
    (l ++ valueToQuotedString value).getLast? = some 34 := by
  rw [valueToQuotedString_eq, ← List.append_assoc, show ascii "\"" = [34] from rfl]
  exact List.getLast?_concat

/-- The member loop adds the text of the members and nothing else. -/
theorem writeMembers_eq (ms : List (Bytes × Bytes)) {w : StyledWriter} {b : Byte}
    (h : w.document_.getLast? = some b) (h32 : b ≠ 32) (h10 : b ≠ 10) :
    writeMembers ms w =
      { w with document_ := w.document_ ++ membersText w.indentString_ ms } := by
  induction ms generalizing w b with
  | nil => simp [writeMembers, membersText]
  | cons m ms ih =>
    have hfirst := writeWithIndent_of_getLast (valueToQuotedString m.1) h h32 h10
    cases ms with
    | nil => simp [writeMembers, membersText, memberText, hfirst, append]
    | cons m' ms =>
      rw [writeMembers, hfirst]
      · -- behind the comma the next member starts a line of its own
        have hcomma : ∀ l : Bytes, (l ++ ascii ",").getLast? = some 44 := fun l =>
          List.getLast?_concat
        rw [ih (hcomma _) (by decide) (by decide)]
        simp [membersText, memberText, append]
      · simp

/-- The text of the members ends with the quote of a value. -/
theorem getLast_membersText (indent : Bytes) (ms : List (Bytes × Bytes)) (h : ms ≠ [])
    (l : Bytes) : (l ++ membersText indent ms).getLast? = some 34 := by
  induction ms generalizing l with
  | nil => exact absurd rfl h
  | cons m ms ih =>
    cases ms with
    | nil =>
      rw [membersText, memberText, ← List.append_assoc]
      exact getLast_valueToQuotedString _ _
    | cons m' ms =>
      rw [membersText, ← List.append_assoc]
      · exact ih (List.cons_ne_nil _ _) _
      · simp

/-- **The text of a written object.** -/
theorem write_eq {ms : List (Bytes × Bytes)} (h : ms ≠ []) :
    write ms = ascii "\x7b" ++ membersText (ascii "   ") ms ++ ascii "\n\x7d\n" := by
  -- the brace, three blanks of indentation for the members, and the brace back
  have hopen : (({} : StyledWriter).writeWithIndent (ascii "\x7b")).indent =
      { document_ := ascii "\x7b", indentString_ := ascii "   " } := rfl
  have hmembers := writeMembers_eq ms
    (w := { document_ := ascii "\x7b", indentString_ := ascii "   " }) (b := 123) rfl
    (by decide) (by decide)
  rw [write, writeObject, if_neg h, hopen, hmembers]
  have hlast := getLast_membersText (ascii "   ") ms h (ascii "\x7b")
  have hclose := writeWithIndent_of_getLast (ascii "\x7d")
    (w := unindent { document_ := ascii "\x7b" ++ membersText (ascii "   ") ms,
                     indentString_ := ascii "   " }) hlast (by decide) (by decide)
  rw [hclose]
  simp only [append_document, unindent, List.append_assoc]
  rfl

theorem zero_notMem_membersText (ms : List (Bytes × Bytes)) :
    (0 : Byte) ∉ membersText (ascii "   ") ms := by
  have hmember : ∀ m : Bytes × Bytes, (0 : Byte) ∉ memberText (ascii "   ") m := by
    intro m
    have h1 : (0 : Byte) ∉ ascii "\n" ++ ascii "   " := by decide
    have h2 : (0 : Byte) ∉ ascii " : " := by decide
    rw [memberText, List.mem_append, List.mem_append, List.mem_append]
    simp [h1, h2, zero_notMem_valueToQuotedString]
  have hcomma : (0 : Byte) ∉ ascii "," := by decide
  induction ms with
  | nil => simp [membersText]
  | cons m ms ih =>
    cases ms with
    | nil => exact hmember m
    | cons m' ms =>
      rw [membersText]
      · simp [hmember, hcomma, ih]
      · simp

/-- A written object holds no NUL. -/
theorem zero_notMem_write {ms : List (Bytes × Bytes)} (h : ms ≠ []) : (0 : Byte) ∉ write ms := by
  have h1 : (0 : Byte) ∉ ascii "\x7b" := by decide
  have h2 : (0 : Byte) ∉ ascii "\n\x7d\n" := by decide
  rw [write_eq h]
  simp [h1, h2, zero_notMem_membersText]

/-- It has its two braces and two line ends. -/
theorem lt_length_write {ms : List (Bytes × Bytes)} (h : ms ≠ []) : 2 < (write ms).length := by
  have h1 : (ascii "\x7b").length = 1 := rfl
  have h2 : (ascii "\n\x7d\n").length = 3 := rfl
  rw [write_eq h]
  simp only [List.length_append, h1, h2]
  omega

/-! ## Runs of `'#'` in a written object -/

/-- One member: a run in its text is a run in its value. -/
theorem replicate_infix_memberText {k : Nat} (hk : 0 < k) {indent : Bytes}
    (hindent : hash ∉ indent) {m : Bytes × Bytes} (hm : hash ∉ m.1) (l r : Bytes) :
    List.replicate k hash <:+: l ++ (memberText indent m ++ r) ↔
      List.replicate k hash <:+: l ∨ List.replicate k hash <:+: cString m.2 ∨
        List.replicate k hash <:+: r := by
  -- all that stands before the value is free of `'#'`, and its quote ends a run
  have hname : hash ∉ valueToQuotedString m.1 := by
    intro h
    rw [valueToQuotedString_eq] at h
    have hq : hash ∉ ascii "\"" := by decide
    simp only [List.mem_append, hq, false_or, or_false, List.mem_flatMap] at h
    rcases h with ⟨c, hc, hce⟩
    have hne : c ≠ hash := fun he => hm (he ▸ (List.takeWhile_sublist _).subset hc)
    exact (escape_of_ne_hash hne).2 hce
  have hsep : hash ∉ ascii "\n" ++ indent ++ valueToQuotedString m.1 ++ ascii " : " ++
      ascii "\"" := by
    have h1 : hash ∉ ascii "\n" := by decide
    have h2 : hash ∉ ascii " : " := by decide
    have h3 : hash ∉ ascii "\"" := by decide
    simp [h1, h2, h3, hindent, hname]
  have htext : l ++ (memberText indent m ++ r) =
      l ++ (ascii "\n" ++ indent ++ valueToQuotedString m.1 ++ ascii " : " ++ ascii "\"") ++
        ((cString m.2).flatMap escape ++ 34 :: r) := by
    rw [memberText, valueToQuotedString_eq m.2, show ascii "\"" = [34] from rfl]
    simp only [List.append_assoc, List.cons_append, List.nil_append]
  rw [htext, Marker.replicate_infix_between hk _ _ _ hsep (by simp [ascii]),
    Marker.replicate_infix_sep (by decide), replicate_infix_escape hk]

/-- All members. -/
theorem replicate_infix_membersText {k : Nat} (hk : 0 < k) {indent : Bytes}
    (hindent : hash ∉ indent) {ms : List (Bytes × Bytes)} (hms : ∀ m ∈ ms, hash ∉ m.1)
    (l r : Bytes) :
    List.replicate k hash <:+: l ++ (membersText indent ms ++ 10 :: r) ↔
      List.replicate k hash <:+: l ∨ (∃ m ∈ ms, List.replicate k hash <:+: cString m.2) ∨
        List.replicate k hash <:+: r := by
  have hnil : ¬ List.replicate k hash <:+: ([] : Bytes) := Marker.not_replicate_infix hk (by simp)
  have hcomma : ¬ List.replicate k hash <:+: ascii "," :=
    Marker.not_replicate_infix hk (by decide)
  induction ms generalizing l with
  | nil =>
    rw [membersText, List.nil_append, Marker.replicate_infix_sep (by decide)]
    simp
  | cons m ms ih =>
    have hm := hms m List.mem_cons_self
    have hrest := ih (fun m hm => hms m (List.mem_cons_of_mem _ hm)) (ascii ",")
    cases ms with
    | nil =>
      have hsep := Marker.replicate_infix_sep (k := k) (x := (10 : Byte)) (a := hash) (by decide)
        [] r
      rw [List.nil_append] at hsep
      rw [membersText, replicate_infix_memberText hk hindent hm, hsep]
      simp [hnil]
    | cons m' ms =>
      rw [membersText, List.append_assoc, List.append_assoc,
        replicate_infix_memberText hk hindent hm]
      · simp only [hrest, hcomma, false_or, List.mem_cons, exists_eq_or_imp, or_assoc]
      · simp

/-- **Runs of `'#'` come from the values alone.** Up to the line end that
closes a written object, it has a run exactly when one of its values has. -/
theorem replicate_infix_write {k : Nat} (hk : 0 < k) {ms : List (Bytes × Bytes)} (h : ms ≠ [])
    (hms : ∀ m ∈ ms, hash ∉ m.1) :
    List.replicate k hash <:+: (write ms).dropLast ↔
      ∃ m ∈ ms, List.replicate k hash <:+: cString m.2 := by
  have hbrace : ¬ List.replicate k hash <:+: ascii "\x7b" :=
    Marker.not_replicate_infix hk (by decide)
  have hbrace' : ¬ List.replicate k hash <:+: [125] := Marker.not_replicate_infix hk (by decide)
  have hdrop : (write ms).dropLast =
      ascii "\x7b" ++ (membersText (ascii "   ") ms ++ 10 :: [125]) := by
    rw [write_eq h, List.dropLast_append_of_ne_nil (by simp [ascii]), List.append_assoc]
    rfl
  rw [hdrop, replicate_infix_membersText hk (by decide) hms]
  simp [hbrace, hbrace']

end StyledWriter

end Json

end PicoDB
