import PicoDB.JsonWindow

/-!
# PicoDB.JsonText — the reader on what the writer wrote

`StyledWriter` writes keys and values as C strings between quotes, with escapes
for what cannot stand there as it is; `decodeString` undoes every escape. So a
written object is read back member by member (`parse_write`), whatever stands
behind it, and a written object that is cut short is refused, unless what
comes in place of the rest has a closing bracket (`parse_write_prefix`).
-/

namespace PicoDB

namespace Json

namespace Reader

variable {scanDouble : Bytes → Option UInt64}

/-! ## Escapes -/

theorem hexValue_hexDigit {n : Nat} (h : n < 16) : hexValue (hexDigit n) = some n := by
  have hall : ∀ m : Fin 16, hexValue (hexDigit m) = some m.val := by decide
  exact hall ⟨n, h⟩

theorem hexDigit_plain {n : Nat} (h : n < 16) : hexDigit n ≠ 92 ∧ hexDigit n ≠ 34 := by
  have hall : ∀ m : Fin 16, hexDigit m ≠ 92 ∧ hexDigit m ≠ 34 := by decide
  exact hall ⟨n, h⟩

/-- How a character is written: as it is, with an escape of its own, or with its
code. -/
inductive Written (c : Byte) : Bytes → Prop where
  | plain (h92 : c ≠ 92) (h34 : c ≠ 34) : Written c [c]
  | simple {e : Byte} (h : simpleEscape e = some c) : Written c [92, e]
  | code (h : c.toNat < 32) :
      Written c [92, 117, 48, 48, hexDigit (c.toNat / 16), hexDigit (c.toNat % 16)]

theorem written_escape (c : Byte) : Written c (escape c) := by
  unfold escape
  by_cases h1 : c = 34
  · subst h1
    exact .simple (e := 34) rfl
  rw [if_neg h1]
  by_cases h2 : c = 92
  · subst h2
    exact .simple (e := 92) rfl
  rw [if_neg h2]
  by_cases h3 : c = 8
  · subst h3
    exact .simple (e := 98) rfl
  rw [if_neg h3]
  by_cases h4 : c = 12
  · subst h4
    exact .simple (e := 102) rfl
  rw [if_neg h4]
  by_cases h5 : c = 10
  · subst h5
    exact .simple (e := 110) rfl
  rw [if_neg h5]
  by_cases h6 : c = 13
  · subst h6
    exact .simple (e := 114) rfl
  rw [if_neg h6]
  by_cases h7 : c = 9
  · subst h7
    exact .simple (e := 116) rfl
  rw [if_neg h7]
  by_cases h8 : isControlCharacter c = true
  · rw [if_pos h8]
    have hlt : c.toNat < 32 := by
      simp only [isControlCharacter, Bool.and_eq_true, decide_eq_true_eq,
        UInt8.le_iff_toNat_le] at h8
      have : (0x1F : UInt8).toNat = 31 := rfl
      omega
    exact .code hlt
  · rw [if_neg h8]
    exact .plain h2 h1

/-- The scan goes over a written character. -/
theorem Written.readString {c : Byte} {w : Bytes} (h : Written c w) (s : Location) :
    Reader.readString (w ++ s) = Reader.readString s := by
  cases h with
  | plain h92 h34 => exact readString_cons h92 h34 s
  | simple h => exact readString_backslash _ s
  | code h =>
    have h1 := hexDigit_plain (n := c.toNat / 16) (by omega)
    have h2 := hexDigit_plain (n := c.toNat % 16) (by omega)
    simp only [List.cons_append, List.nil_append, readString_backslash]
    rw [readString_cons (by decide) (by decide), readString_cons (by decide) (by decide),
      readString_cons h1.1 h1.2, readString_cons h2.1 h2.2]

/-- One turn of the decoder gives the character back. -/
theorem Written.decodeChars {token : Token} {stop : Location} {c : Byte} {w : Bytes}
    (h : Written c w) (n : Nat) (s decoded : Bytes) :
    Reader.decodeChars token stop (n + 1) (w ++ s) decoded =
      Reader.decodeChars token stop n s (decoded ++ [c]) := by
  cases h with
  | plain h92 h34 =>
    rw [List.singleton_append, Reader.decodeChars, if_neg h34, decodeChar_plain h92]
  | simple h =>
    rw [List.cons_append, List.singleton_append, Reader.decodeChars, if_neg (by decide),
      decodeChar_simple h]
  | code h =>
    -- four hexadecimal digits, and the code point is below 32
    have h1 := hexValue_hexDigit (n := c.toNat / 16) (by omega)
    have h2 := hexValue_hexDigit (n := c.toNat % 16) (by omega)
    have h0 : hexValue 48 = some 0 := by decide
    have hcode : decodeUnicodeCodePoint token stop
        (48 :: 48 :: hexDigit (c.toNat / 16) :: hexDigit (c.toNat % 16) :: s) =
          .ok (c.toNat, s) := by
      have hfour : decodeUnicodeEscapeSequence token stop
          (48 :: 48 :: hexDigit (c.toNat / 16) :: hexDigit (c.toNat % 16) :: s) =
            .ok (c.toNat, s) := by
        rw [decodeUnicodeEscapeSequence, if_neg (by simp)]
        simp only [decodeHexDigits, peek, List.headD_cons, List.tail_cons, h0, h1, h2]
        congr 2
        omega
      rw [decodeUnicodeCodePoint, hfour]
      dsimp only
      rw [if_neg (by omega)]
    have hutf8 : codePointToUTF8 c.toNat = [c] := by
      rw [codePointToUTF8, if_pos (by omega), UInt8.ofNat_toNat]
    simp only [List.cons_append, List.nil_append]
    rw [Reader.decodeChars, if_neg (by decide), decodeChar_unicode hcode, hutf8]

theorem readString_flatMap_escape (v : Bytes) (r : Location) :
    readString (v.flatMap escape ++ 34 :: r) = (true, r) := by
  induction v with
  | nil => exact readString_quote r
  | cons c v ih => rw [List.flatMap_cons, List.append_assoc, (written_escape c).readString, ih]

theorem decodeChars_flatMap_escape {token : Token} {stop : Location} (v : Bytes) (n : Nat)
    (decoded : Bytes) (h : v.length ≤ n) :
    decodeChars token stop n (v.flatMap escape) decoded = .ok (decoded ++ v) := by
  induction v generalizing n decoded with
  | nil =>
    rw [List.append_nil]
    cases n <;> rfl
  | cons c v ih =>
    rw [List.length_cons] at h
    obtain ⟨n, rfl⟩ : ∃ m, n = m + 1 := ⟨n - 1, by omega⟩
    rw [List.flatMap_cons, (written_escape c).decodeChars, ih n _ (by omega), List.append_assoc,
      List.singleton_append]

theorem length_le_flatMap_escape (v : Bytes) : v.length ≤ (v.flatMap escape).length := by
  induction v with
  | nil => exact Nat.le_refl _
  | cons c v ih =>
    have hpos : 0 < (escape c).length := by
      have hw := written_escape c
      generalize escape c = w at hw
      cases hw <;> simp
    rw [List.flatMap_cons, List.length_append, List.length_cons]
    omega

/-! ## Tokens of a written object -/

theorem forall_isSpace {sp : Bytes} (h : sp.all isSpace = true) : ∀ b ∈ sp, isSpace b = true :=
  List.all_eq_true.mp h

/-- A token of one character, spaces in front of it or not. -/
theorem readToken_oneChar {sp : Bytes} (hsp : ∀ b ∈ sp, isSpace b = true) {c : Byte}
    {type_ : TokenType} (hc : isSpace c = false) (h : oneCharToken c = some type_) (s : Location) :
    readToken (sp ++ c :: s) = ⟨type_, c :: s, s⟩ := by
  rw [readToken_skip hsp, readToken_cons hc, readTokenAt, h]

theorem skipCommentTokens_oneChar {sp : Bytes} (hsp : ∀ b ∈ sp, isSpace b = true) {c : Byte}
    {type_ : TokenType} (hc : isSpace c = false) (h : oneCharToken c = some type_) (s : Location) :
    skipCommentTokens (sp ++ c :: s) = ⟨type_, c :: s, s⟩ := by
  have htoken := readToken_oneChar hsp hc h s
  rw [skipCommentTokens_of_ne, htoken]
  rw [htoken]
  dsimp only
  intro hcomment
  subst hcomment
  rcases oneCharToken_eq_some h with h | h | h | h | h | h | h <;> cases h.1

/-- What stands between quotes and is scanned up to the second of them is a string
token, and decodes to what the decoder makes of it. -/
theorem readToken_quoted {body v : Bytes} {r : Location}
    (hscan : readString (body ++ 34 :: r) = (true, r))
    (hdecode : ∀ token stop, decodeChars token stop body.length body [] = .ok v) :
    (readToken (34 :: (body ++ 34 :: r))).type_ = .tokenString ∧
      decodeString (readToken (34 :: (body ++ 34 :: r))) = .ok v ∧
      (readToken (34 :: (body ++ 34 :: r))).end_ = r := by
  have htoken : readToken (34 :: (body ++ 34 :: r)) =
      { type_ := .tokenString, start_ := 34 :: (body ++ 34 :: r), end_ := r } := by
    have hat : readTokenAt 34 (body ++ 34 :: r) = (.tokenString, r) := by
      change checked .tokenString (readString _) = _
      rw [hscan]
      rfl
    rw [readToken_cons (by decide), hat]
  have htext : (readToken (34 :: (body ++ 34 :: r))).text = 34 :: (body ++ [34]) := by
    have hsplit : (34 : Byte) :: (body ++ 34 :: r) = 34 :: (body ++ [34]) ++ r := by simp
    rw [htoken, Token.text]
    dsimp only
    rw [hsplit, List.length_append, Nat.add_sub_cancel, List.take_left]
  refine ⟨by rw [htoken], ?_, by rw [htoken]⟩
  unfold decodeString
  dsimp only
  rw [htext, List.drop_one, List.tail_cons, List.dropLast_concat, hdecode]

/-- A written string decodes to the C string it was written from. -/
theorem readToken_valueToQuotedString (v : Bytes) (r : Location) :
    (readToken (valueToQuotedString v ++ r)).type_ = .tokenString ∧
      decodeString (readToken (valueToQuotedString v ++ r)) = .ok (cString v) ∧
      (readToken (valueToQuotedString v ++ r)).end_ = r := by
  have hquoted : valueToQuotedString v ++ r = 34 :: ((cString v).flatMap escape ++ 34 :: r) := by
    rw [valueToQuotedString_eq, show ascii "\"" = [34] from rfl]
    simp
  rw [hquoted]
  exact readToken_quoted (readString_flatMap_escape _ r) fun token stop =>
    decodeChars_flatMap_escape _ _ _ (length_le_flatMap_escape _)

/-! ## Spaces -/

theorem skipCommentTokens_skip {sp : Bytes} (hsp : ∀ b ∈ sp, isSpace b = true) (s : Location) :
    skipCommentTokens (sp ++ s) = skipCommentTokens s := by
  by_cases h : (readToken s).type_ = .tokenComment
  · rw [skipCommentTokens_of_comment h, skipCommentTokens_of_comment, readToken_skip hsp]
    rw [readToken_skip hsp, h]
  · rw [skipCommentTokens_of_ne h, skipCommentTokens_of_ne, readToken_skip hsp]
    rw [readToken_skip hsp]
    exact h

theorem skipCommentTokens_skipSpaces (s : Location) :
    skipCommentTokens (skipSpaces s) = skipCommentTokens s := by
  conv_rhs => rw [← List.takeWhile_append_dropWhile (p := isSpace) (l := s)]
  exact (skipCommentTokens_skip (fun b hb => List.mem_takeWhile_imp hb) _).symm

/-- A value stands where its first token does. -/
theorem accepts_congr {s s' rest : Location} {x : Value}
    (hskip : skipCommentTokens s' = skipCommentTokens s) (h : Accepts scanDouble .value s x rest) :
    Accepts scanDouble .value s' x rest := by
  cases h with
  | null h => rw [← hskip] at h ⊢; exact .null h
  | true h => rw [← hskip] at h ⊢; exact .true h
  | false h => rw [← hskip] at h ⊢; exact .false h
  | number h hx => rw [← hskip] at h hx ⊢; exact .number h hx
  | string h hd => rw [← hskip] at h hd ⊢; exact .string h hd
  | object h hx => rw [← hskip] at h hx; exact .object h hx
  | array h hx => rw [← hskip] at h hx; exact .array h hx

/-- Spaces may stand in front of a value. -/
theorem accepts_skip {sp : Bytes} (hsp : ∀ b ∈ sp, isSpace b = true) {s rest : Location} {x : Value}
    (h : Accepts scanDouble .value s x rest) : Accepts scanDouble .value (sp ++ s) x rest :=
  accepts_congr (skipCommentTokens_skip hsp s) h

/-- No value begins with a closing bracket. -/
theorem not_bracket_of_accepts {s rest : Location} {x : Value}
    (h : Accepts scanDouble .value s x rest) : peek (skipSpaces s) ≠ 93 := by
  intro hpeek
  have htype : (readToken s).type_ = .tokenArrayEnd := by
    change (readTokenAt (peek (skipSpaces s)) (skipSpaces s).tail).1 = _
    rw [hpeek]
    rfl
  have hskip : (skipCommentTokens s).type_ = .tokenArrayEnd := by
    rw [skipCommentTokens_of_ne (by rw [htype]; decide), htype]
  cases h with
  | null h => rw [hskip] at h; cases h
  | true h => rw [hskip] at h; cases h
  | false h => rw [hskip] at h; cases h
  | number h => rw [hskip] at h; cases h
  | string h => rw [hskip] at h; cases h
  | object h => rw [hskip] at h; cases h
  | array h => rw [hskip] at h; cases h

/-- The elements of an array that is not empty. -/
theorem accepts_array {s rest : Location} {x : Value}
    (h : Accepts scanDouble (.elements []) s x rest) : Accepts scanDouble .array s x rest := by
  have hskip := skipCommentTokens_skipSpaces s
  cases h with
  | lastElement hx hend =>
    exact .someElement (not_bracket_of_accepts hx) (.lastElement (accepts_congr hskip hx) hend)
  | element hx hcomma hy =>
    exact .someElement (not_bracket_of_accepts hx) (.element (accepts_congr hskip hx) hcomma hy)

/-! ## Members -/

/-- A written string is read over, spaces in front of it or not. -/
theorem skipCommentTokens_quoted {sp : Bytes} (hsp : ∀ b ∈ sp, isSpace b = true) (v : Bytes)
    (r : Location) :
    (skipCommentTokens (sp ++ (valueToQuotedString v ++ r))).type_ = .tokenString ∧
      decodeString (skipCommentTokens (sp ++ (valueToQuotedString v ++ r))) = .ok (cString v) ∧
      (skipCommentTokens (sp ++ (valueToQuotedString v ++ r))).end_ = r := by
  have hquoted := readToken_valueToQuotedString v r
  rw [skipCommentTokens_skip hsp, skipCommentTokens_of_ne (by rw [hquoted.1]; decide)]
  exact hquoted

theorem accepts_quoted {sp : Bytes} (hsp : ∀ b ∈ sp, isSpace b = true) (v : Bytes) (r : Location) :
    Accepts scanDouble .value (sp ++ (valueToQuotedString v ++ r))
      (.stringValue (cString v)) r := by
  obtain ⟨htype, hd, hend⟩ := skipCommentTokens_quoted hsp v r
  have haccepts : Accepts scanDouble .value _ _ _ := .string htype hd
  rwa [hend, cString_cString] at haccepts

/-- The members of an object once those that were written are read, too. -/
def putMembers (ms : List (Bytes × Bytes)) (acc : List (Bytes × Value)) : List (Bytes × Value) :=
  ms.foldl (fun acc m => putMember (cString m.1) (.stringValue (cString m.2)) acc) acc

/-- A written name and its colon are read over. -/
theorem member_head {sp : Bytes} (hsp : ∀ b ∈ sp, isSpace b = true) (name : Bytes) (s' : Location) :
    let s := sp ++ (valueToQuotedString name ++ (ascii " : " ++ s'))
    (skipCommentTokens s).type_ = .tokenString ∧
      decodeString (skipCommentTokens s) = .ok (cString name) ∧
      (readToken (skipCommentTokens s).end_).type_ = .tokenMemberSeparator ∧
      (readToken (skipCommentTokens s).end_).end_ = 32 :: s' := by
  intro s
  obtain ⟨htype, hd, hend⟩ := skipCommentTokens_quoted hsp name (ascii " : " ++ s')
  have hblank : ∀ b ∈ ([32] : Bytes), isSpace b = true := forall_isSpace (by decide)
  have hcolon : readToken (ascii " : " ++ s') =
      { type_ := .tokenMemberSeparator, start_ := 58 :: 32 :: s', end_ := 32 :: s' } := by
    rw [show ascii " : " ++ s' = [32] ++ 58 :: 32 :: s' from rfl, readToken_skip hblank,
      readToken_cons (by decide)]
    rfl
  refine ⟨htype, hd, ?_, ?_⟩
  · rw [hend, hcolon]
  · rw [hend, hcolon]

variable (scanDouble) in
/-- One written member, up to its value. -/
theorem accepts_memberText {indent : Bytes} (hindent : ∀ b ∈ indent, isSpace b = true)
    (m : Bytes × Bytes) (s' : Location) :
    let s := StyledWriter.memberText indent m ++ s'
    (skipCommentTokens s).type_ = .tokenString ∧
      decodeString (skipCommentTokens s) = .ok (cString m.1) ∧
      (readToken (skipCommentTokens s).end_).type_ = .tokenMemberSeparator ∧
      Accepts scanDouble .value (readToken (skipCommentTokens s).end_).end_
        (.stringValue (cString m.2)) s' := by
  intro s
  have hsp : ∀ b ∈ ascii "\n" ++ indent, isSpace b = true :=
    List.forall_mem_append.mpr
      ⟨forall_isSpace (by decide : (ascii "\n").all isSpace = true), hindent⟩
  have hs : s = (ascii "\n" ++ indent) ++ (valueToQuotedString m.1 ++
      (ascii " : " ++ (valueToQuotedString m.2 ++ s'))) := by
    simp only [s, StyledWriter.memberText, List.append_assoc]
  obtain ⟨htype, hd, hcolon, hend⟩ := member_head hsp m.1 (valueToQuotedString m.2 ++ s')
  rw [← hs] at htype hd hcolon hend
  have hblank : ∀ b ∈ ([32] : Bytes), isSpace b = true := forall_isSpace (by decide)
  exact ⟨htype, hd, hcolon, hend ▸ accepts_quoted hblank m.2 s'⟩

/-- The written members of an object, and its closing brace. -/
theorem accepts_membersText {indent : Bytes} (hindent : ∀ b ∈ indent, isSpace b = true)
    {ms : List (Bytes × Bytes)} (hms : ms ≠ []) (name₀ : Bytes) (acc : List (Bytes × Value))
    (r : Location) :
    Accepts scanDouble (.members name₀ acc)
      (StyledWriter.membersText indent ms ++ (10 :: 125 :: r)) (.objectValue (putMembers ms acc))
      r := by
  induction ms generalizing name₀ acc with
  | nil => exact absurd rfl hms
  | cons m ms ih =>
    cases ms with
    | nil =>
      obtain ⟨htype, hd, hcolon, hx⟩ := accepts_memberText scanDouble hindent m (10 :: 125 :: r)
      have hline : ∀ b ∈ ([10] : Bytes), isSpace b = true := forall_isSpace (by decide)
      have hbrace : readToken (10 :: 125 :: r) = ⟨.tokenObjectEnd, 125 :: r, r⟩ := rfl
      have hskip : skipCommentTokens (10 :: 125 :: r) = ⟨.tokenObjectEnd, 125 :: r, r⟩ :=
        skipCommentTokens_oneChar hline (by decide) rfl r
      have hrest : (skipCommentTokens (10 :: 125 :: r)).end_ = r := by rw [hskip]
      have haccepts : Accepts scanDouble (.members name₀ acc) _ _ _ :=
        .lastMember htype hd hcolon hx (Or.inl (by rw [hbrace])) (by rw [hskip])
      rwa [hrest] at haccepts
    | cons m' ms =>
      have htext : StyledWriter.membersText indent (m :: m' :: ms) ++ (10 :: 125 :: r) =
          StyledWriter.memberText indent m ++
            (44 :: (StyledWriter.membersText indent (m' :: ms) ++ (10 :: 125 :: r))) := by
        rw [StyledWriter.membersText, show ascii "," = [44] from rfl]
        · simp
        · simp
      obtain ⟨htype, hd, hcolon, hx⟩ := accepts_memberText scanDouble hindent m
        (44 :: (StyledWriter.membersText indent (m' :: ms) ++ (10 :: 125 :: r)))
      generalize htail : StyledWriter.membersText indent (m' :: ms) ++ (10 :: 125 :: r) = tail at *
      have hcomma : readToken (44 :: tail) = ⟨.tokenArraySeparator, 44 :: tail, tail⟩ := rfl
      have hskip : skipCommentTokens (44 :: tail) = ⟨.tokenArraySeparator, 44 :: tail, tail⟩ :=
        skipCommentTokens_oneChar (List.forall_mem_nil _) (by decide) rfl tail
      have hmore := ih (by simp) (cString m.1)
        (putMember (cString m.1) (.stringValue (cString m.2)) acc)
      rw [htext]
      refine .member htype hd hcolon hx (Or.inr (Or.inl (by rw [hcomma]))) ?_ ?_
      · rw [hskip]
        simp
      · rw [hskip]
        exact hmore

/-! ## Written objects -/

/-- **Round trip.** What was written as an object is read back, whatever stands
behind it: its members in their order, as C strings. -/
theorem accepts_write (ms : List (Bytes × Bytes)) (junk : Bytes) :
    Accepts scanDouble .value (StyledWriter.write ms ++ junk) (.objectValue (putMembers ms []))
      (10 :: junk) := by
  have hnone : ∀ b ∈ ([] : Bytes), isSpace b = true := by simp
  have hopen : ∀ s : Location, skipCommentTokens (123 :: s) = ⟨.tokenObjectBegin, 123 :: s, s⟩ :=
    skipCommentTokens_oneChar hnone (by decide) rfl
  by_cases hms : ms = []
  · subst hms
    have hclose : skipCommentTokens (125 :: 10 :: junk) =
        ⟨.tokenObjectEnd, 125 :: 10 :: junk, 10 :: junk⟩ :=
      skipCommentTokens_oneChar hnone (by decide) rfl (10 :: junk)
    have hmembers : Accepts scanDouble (.members [] []) (125 :: 10 :: junk) (.objectValue []) _ :=
      .noMember (by rw [hclose])
    rw [hclose] at hmembers
    refine .object (s := 123 :: 125 :: 10 :: junk) (by rw [hopen]) ?_
    rw [hopen]
    exact hmembers
  · have hspaces : ∀ b ∈ ascii "   ", isSpace b = true := forall_isSpace (by decide)
    have htext : StyledWriter.write ms ++ junk =
        123 :: (StyledWriter.membersText (ascii "   ") ms ++ (10 :: 125 :: 10 :: junk)) := by
      rw [StyledWriter.write_eq hms, show ascii "\x7b" = [123] from rfl,
        show ascii "\n\x7d\n" = [10, 125, 10] from rfl]
      simp
    rw [htext]
    refine .object (by rw [hopen]) ?_
    rw [hopen]
    exact accepts_membersText hspaces hms [] [] (10 :: junk)

/-- **Round trip**, for a whole document. -/
theorem parse_write (ms : List (Bytes × Bytes)) (junk : Bytes) :
    (parse scanDouble (StyledWriter.write ms ++ junk)).1 =
      some (.objectValue (putMembers ms [])) :=
  parse_eq_some_iff.mpr ⟨_, accepts_write ms junk⟩

theorem putMember_concat {name : Bytes} (x : Value) {acc : List (Bytes × Value)}
    (h : ∀ a ∈ acc, a.1 < cString name) : putMember name x acc = acc ++ [(cString name, x)] := by
  induction acc with
  | nil => rfl
  | cons a acc ih =>
    have hlt := h a List.mem_cons_self
    rw [putMember, if_neg (fun heq => List.lt_irrefl _ (heq ▸ hlt)), if_neg (List.lt_asymm hlt),
      ih fun b hb => h b (List.mem_cons_of_mem _ hb), List.cons_append]

/-- Members with their keys in order come out as they went in. -/
theorem putMembers_append {ms : List (Bytes × Bytes)} {acc : List (Bytes × Value)}
    (h : (acc.map Prod.fst ++ ms.map fun m => cString m.1).Pairwise (· < ·)) :
    putMembers ms acc = acc ++ ms.map fun m => (cString m.1, .stringValue (cString m.2)) := by
  induction ms generalizing acc with
  | nil => simp [putMembers]
  | cons m ms ih =>
    have hname : cString (cString m.1) = cString m.1 :=
      cString_of_zero_notMem (zero_notMem_cString m.1)
    have hlt : ∀ a ∈ acc, a.1 < cString (cString m.1) := by
      intro a ha
      rw [hname]
      exact (List.pairwise_append.mp h).2.2 _ (List.mem_map_of_mem ha) _ (by simp)
    have hput : putMembers (m :: ms) acc =
        putMembers ms (putMember (cString m.1) (.stringValue (cString m.2)) acc) := rfl
    rw [hput, putMember_concat _ hlt, hname, ih]
    · simp
    · simpa using h

/-- Up to the line end behind its brace, a written object is a word of the
reader. -/
theorem word_write (ms : List (Bytes × Bytes)) :
    PrefixCode.Word (Bracketed scanDouble) (StyledWriter.write ms).dropLast
      (.objectValue (putMembers ms [])) := by
  have hread : Bracketed scanDouble (StyledWriter.write ms) (.objectValue (putMembers ms []))
      [10] := by
    have haccepts : Accepts scanDouble .value _ _ _ := accepts_write ms []
    rw [List.append_nil] at haccepts
    exact ⟨haccepts, trivial⟩
  obtain ⟨w, hw, hword⟩ := bracketed_selfDelimiting.exists_word hread
  rwa [hw, List.dropLast_concat]

theorem skipCommentTokens_brace (s : Location) :
    skipCommentTokens (123 :: s) = ⟨.tokenObjectBegin, 123 :: s, s⟩ :=
  skipCommentTokens_oneChar (List.forall_mem_nil _) (by decide) rfl s

/-- Behind an opening brace there is an object or nothing. -/
theorem bracketed_of_brace {s rest : Location} {x : Value}
    (h : Accepts scanDouble .value (123 :: s) x rest) : Bracketed scanDouble (123 :: s) x rest := by
  refine ⟨h, ?_⟩
  have htoken := skipCommentTokens_brace s
  cases h with
  | null h => rw [htoken] at h; cases h
  | true h => rw [htoken] at h; cases h
  | false h => rw [htoken] at h; cases h
  | number h => rw [htoken] at h; cases h
  | string h => rw [htoken] at h; cases h
  | object _ h => exact h.bracketed (by simp)
  | array h => rw [htoken] at h; cases h

/-- **A written object that is cut short is refused**, with anything in place of
the rest that has no closing bracket. -/
theorem parse_write_prefix {ms : List (Bytes × Bytes)} {p z : Bytes} (hnil : p ≠ [])
    (hp : p <+: (StyledWriter.write ms).dropLast) (hne : p ≠ (StyledWriter.write ms).dropLast)
    (hz : ∀ c ∈ z, ¬ Bracket c) : (parse scanDouble (p ++ z)).1 = none := by
  obtain ⟨s, hs⟩ : ∃ s, p = 123 :: s := by
    cases p with
    | nil => exact absurd rfl hnil
    | cons c s =>
      obtain ⟨t, ht⟩ : ∃ t, (StyledWriter.write ms).dropLast = 123 :: t := by
        by_cases hms : ms = []
        · subst hms
          exact ⟨_, rfl⟩
        · rw [StyledWriter.write_eq hms, List.dropLast_append_of_ne_nil (by simp [ascii]),
            show ascii "\x7b" = [123] from rfl]
          exact ⟨_, rfl⟩
      rw [ht, List.cons_prefix_cons] at hp
      exact ⟨s, by rw [hp.1]⟩
  cases hparse : (parse scanDouble (p ++ z)).1 with
  | none => rfl
  | some x =>
    exfalso
    obtain ⟨rest, haccepts⟩ := parse_eq_some_iff.mp hparse
    rw [hs, List.cons_append] at haccepts
    have hread := bracketed_of_brace haccepts
    rw [← List.cons_append, ← hs] at hread
    exact bracketed_selfDelimiting.not_read_of_padded (fun h => h.ends_bracket)
      (word_write ms) hp hne hz hread

end Reader

end Json

end PicoDB
