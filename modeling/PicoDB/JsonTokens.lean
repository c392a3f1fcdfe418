import PicoDB.Json

/-!
# PicoDB.JsonTokens — the tokens of `Json::Reader`

The reader of `third_party/json_cpp` walks over a document with a pointer,
`current_`. A pointer into the document is here what stands from there to
`end_` (`Location`), so a read moves to a suffix of where it was. What
`getNextChar` gives at the end of the document is NUL, and so is `*end_`.

`readToken` always gives a token, if need be an error token. The decoders turn
the text of a string or of a number into a value, or record an error. The text
of a number that is not read as an integer goes to `sscanf`, which is
`scanDouble` here: the bits of the double, or nothing.
-/

namespace PicoDB

namespace Json

namespace Reader

/-! ## Locations and tokens -/

/-- `Location`: the bytes from there to `end_`. -/
abbrev Location := Bytes

/-- `TokenType`. -/
inductive TokenType where
  | tokenEndOfStream
  | tokenObjectBegin
  | tokenObjectEnd
  | tokenArrayBegin
  | tokenArrayEnd
  | tokenString
  | tokenNumber
  | tokenTrue
  | tokenFalse
  | tokenNull
  | tokenArraySeparator
  | tokenMemberSeparator
  | tokenComment
  | tokenError
deriving DecidableEq, Repr

/-- `Token`. -/
structure Token where
  type_ : TokenType
  start_ : Location
  end_ : Location
deriving DecidableEq, Repr

/-- `std::string( token.start_, token.end_ )`. -/
def Token.text (token : Token) : Bytes :=
  token.start_.take (token.start_.length - token.end_.length)

/-- `ErrorInfo`. -/
structure ErrorInfo where
  token_ : Token
  message_ : Bytes
  extra_ : Option Location := none
deriving DecidableEq, Repr

/-! ## Reading a token -/

/-- `*current_`. -/
def peek (current_ : Location) : Byte := current_.headD 0

/-- `getNextChar`. -/
def getNextChar (current_ : Location) : Byte × Location := (peek current_, current_.tail)

/-- `' '`, `'\t'`, `'\r'` and `'\n'`. -/
def isSpace (c : Byte) : Bool := c == 32 || c == 9 || c == 13 || c == 10

/-- `skipSpaces`. -/
def skipSpaces (current_ : Location) : Location := current_.dropWhile isSpace

/-- `match`; a pattern that does not match moves nothing. -/
def matchPattern (pattern : Bytes) (current_ : Location) : Bool × Location :=
  if pattern.isPrefixOf current_ then (true, current_.drop pattern.length) else (false, current_)

/-- `readCStyleComment`, behind the `/*`: `*current_` is looked at behind a
`'*'`, and the `getNextChar` behind the loop takes the `'/'`. -/
def readCStyleComment : Location → Bool × Location
  | [] => (false, [])
  | c :: current_ =>
    if c = 42 ∧ peek current_ = 47 then (true, current_.tail) else readCStyleComment current_

/-- `readCppStyleComment`, behind the `//`. -/
def readCppStyleComment : Location → Location
  | [] => []
  | c :: current_ => if c = 13 ∨ c = 10 then current_ else readCppStyleComment current_

/-- `readComment`, behind the first `'/'`. -/
def readComment (current_ : Location) : Bool × Location :=
  let next := getNextChar current_
  if next.1 = 42 then readCStyleComment next.2
  else if next.1 = 47 then (true, readCppStyleComment next.2)
  else (false, next.2)

/-- What `readNumber` goes on over. -/
def isNumberChar (c : Byte) : Bool :=
  Decimal.isDigit c || c == 46 || c == 101 || c == 69 || c == 43 || c == 45

/-- `readNumber`. -/
def readNumber (current_ : Location) : Location := current_.dropWhile isNumberChar

/-- `readString`, behind the opening quote: the character behind a `'\\'` is
passed over, whatever it is. -/
def readString : Location → Bool × Location
  | [] => (false, [])
  | [c] => (c == 34, [])
  | c :: d :: current_ =>
    if c = 92 then readString current_
    else if c = 34 then (true, d :: current_)
    else readString (d :: current_)

/-- `if ( !ok ) token.type_ = tokenError`. -/
def checked (type_ : TokenType) (read : Bool × Location) : TokenType × Location :=
  (if read.1 then type_ else .tokenError, read.2)

/-- The tokens of one character; NUL is the end of the stream. -/
def oneCharToken (c : Byte) : Option TokenType :=
  if c = 123 then some .tokenObjectBegin
  else if c = 125 then some .tokenObjectEnd
  else if c = 91 then some .tokenArrayBegin
  else if c = 93 then some .tokenArrayEnd
  else if c = 44 then some .tokenArraySeparator
  else if c = 58 then some .tokenMemberSeparator
  else if c = 0 then some .tokenEndOfStream
  else none

/-- The tokens that are words: what has to follow their first character. -/
def wordToken (c : Byte) : Option (TokenType × Bytes) :=
  if c = 116 then some (.tokenTrue, ascii "rue")
  else if c = 102 then some (.tokenFalse, ascii "alse")
  else if c = 110 then some (.tokenNull, ascii "ull")
  else none

/-- The `switch` of `readToken` on the first character of the token. -/
def readTokenAt (c : Byte) (current_ : Location) : TokenType × Location :=
  match oneCharToken c with
  | some type_ => (type_, current_)
  | none =>
    if c = 34 then checked .tokenString (readString current_)
    else if c = 47 then checked .tokenComment (readComment current_)
    else if Decimal.isDigit c || c == 45 then (.tokenNumber, readNumber current_)
    else
      match wordToken c with
      | some (type_, pattern) => checked type_ (matchPattern pattern current_)
      | none => (.tokenError, current_)

/-- `readToken`; `current_` is at `end_` of the token afterwards. -/
def readToken (current_ : Location) : Token :=
  let start_ := skipSpaces current_
  let next := getNextChar start_
  let read := readTokenAt next.1 next.2
  { type_ := read.1, start_ := start_, end_ := read.2 }

/-- `while ( token.type_ == tokenComment ) readToken( token );` for at most so
many comments. -/
def skipComments : Nat → Token → Token
  | 0, token => token
  | n + 1, token =>
    if token.type_ = .tokenComment then skipComments n (readToken token.end_) else token

/-- `skipCommentTokens`: there are no more comments than bytes. -/
def skipCommentTokens (current_ : Location) : Token :=
  skipComments current_.length (readToken current_)

/-- The loop of `recoverFromError`. -/
def skipUntil (skipUntilToken : TokenType) : Nat → Location → Location
  | 0, current_ => current_
  | n + 1, current_ =>
    let skip := readToken current_
    if skip.type_ = skipUntilToken ∨ skip.type_ = .tokenEndOfStream then skip.end_
    else skipUntil skipUntilToken n skip.end_

/-! ## Tokens take something off the document -/

theorem skipSpaces_suffix (s : Location) : skipSpaces s <:+ s := List.dropWhile_suffix _

theorem readCStyleComment_suffix (s : Location) : (readCStyleComment s).2 <:+ s := by
  induction s with
  | nil => exact List.suffix_rfl
  | cons c s ih =>
    rw [readCStyleComment]
    split
    · exact (List.tail_suffix s).trans (List.suffix_cons c s)
    · exact ih.trans (List.suffix_cons c s)

theorem readCppStyleComment_suffix (s : Location) : readCppStyleComment s <:+ s := by
  induction s with
  | nil => exact List.suffix_rfl
  | cons c s ih =>
    rw [readCppStyleComment]
    split
    · exact List.suffix_cons c s
    · exact ih.trans (List.suffix_cons c s)

theorem readComment_suffix (s : Location) : (readComment s).2 <:+ s := by
  have htail : (getNextChar s).2 <:+ s := List.tail_suffix s
  unfold readComment
  by_cases hstar : (getNextChar s).1 = 42
  · rw [if_pos hstar]
    exact (readCStyleComment_suffix _).trans htail
  · rw [if_neg hstar]
    by_cases hslash : (getNextChar s).1 = 47
    · rw [if_pos hslash]
      exact (readCppStyleComment_suffix _).trans htail
    · rw [if_neg hslash]
      exact htail

theorem readString_suffix (s : Location) : (readString s).2 <:+ s := by
  fun_induction readString s with
  | case1 => exact List.suffix_rfl
  | case2 c => exact List.suffix_cons c []
  | case3 d s ih => exact ih.trans ((List.suffix_cons d s).trans (List.suffix_cons _ _))
  | case4 d s => exact List.suffix_cons _ _
  | case5 c d s _ _ ih => exact ih.trans (List.suffix_cons _ _)

theorem matchPattern_suffix (pattern : Bytes) (s : Location) :
    (matchPattern pattern s).2 <:+ s := by
  unfold matchPattern
  split
  · exact List.drop_suffix _ _
  · exact List.suffix_rfl

/-- What the `switch` does, by the first character. -/
inductive TokenAt (c : Byte) (s : Location) : TokenType × Location → Prop where
  | oneChar {type_ : TokenType} (h : oneCharToken c = some type_) : TokenAt c s (type_, s)
  | string (h : c = 34) : TokenAt c s (checked .tokenString (readString s))
  | comment (h : c = 47) : TokenAt c s (checked .tokenComment (readComment s))
  | number (h : (Decimal.isDigit c || c == 45) = true) : TokenAt c s (.tokenNumber, readNumber s)
  | word {type_ : TokenType} {pattern : Bytes} (h : wordToken c = some (type_, pattern)) :
      TokenAt c s (checked type_ (matchPattern pattern s))
  | other : TokenAt c s (.tokenError, s)

theorem readTokenAt_cases (c : Byte) (s : Location) : TokenAt c s (readTokenAt c s) := by
  unfold readTokenAt
  split
  · exact .oneChar (by assumption)
  · split
    · exact .string (by assumption)
    · split
      · exact .comment (by assumption)
      · split
        · exact .number (by assumption)
        · split
          · exact .word (by assumption)
          · exact .other

theorem TokenAt.suffix {c : Byte} {s : Location} {r : TokenType × Location}
    (h : TokenAt c s r) : r.2 <:+ s := by
  cases h with
  | oneChar => exact List.suffix_rfl
  | string => exact readString_suffix s
  | comment => exact readComment_suffix s
  | number => exact List.dropWhile_suffix _
  | word => exact matchPattern_suffix _ s
  | other => exact List.suffix_rfl

theorem readToken_start (s : Location) : (readToken s).start_ = skipSpaces s := rfl

/-- Where no space is in front, the first character says what the token is. -/
theorem readToken_cons {c : Byte} (h : isSpace c = false) (s : Location) : readToken (c :: s) =
    { type_ := (readTokenAt c s).1, start_ := c :: s, end_ := (readTokenAt c s).2 } := by
  have hskip : skipSpaces (c :: s) = c :: s := by
    rw [skipSpaces, List.dropWhile_cons, if_neg (by simp [h])]
  unfold readToken
  rw [hskip]
  rfl

/-- Spaces in front of a token are skipped. -/
theorem readToken_skip {sp : Bytes} (h : ∀ b ∈ sp, isSpace b = true) (s : Location) :
    readToken (sp ++ s) = readToken s := by
  have hskip : skipSpaces (sp ++ s) = skipSpaces s := List.dropWhile_append_of_pos h
  unfold readToken
  rw [hskip]

theorem readToken_end_suffix (s : Location) : (readToken s).end_ <:+ (readToken s).start_.tail :=
  (readTokenAt_cases _ _).suffix

theorem readToken_suffix (s : Location) : (readToken s).end_ <:+ s :=
  (readToken_end_suffix s).trans ((List.tail_suffix _).trans (skipSpaces_suffix s))

/-- Every token but the end of the stream takes something. -/
theorem readToken_length_lt {s : Location} (h : (readToken s).type_ ≠ .tokenEndOfStream) :
    (readToken s).end_.length < s.length := by
  have hstart := (skipSpaces_suffix s).length_le
  have hend := (readToken_end_suffix s).length_le
  rw [readToken_start, List.length_tail] at hend
  by_cases hnil : skipSpaces s = []
  · refine absurd ?_ h
    simp only [readToken, getNextChar, hnil]
    rfl
  · have hpos := List.length_pos_iff.mpr hnil
    omega

/-- Any bound that covers the bytes behind the token will do. -/
theorem skipComments_congr {n m : Nat} {t : Token}
    (hn : t.type_ = .tokenComment → t.end_.length < n)
    (hm : t.type_ = .tokenComment → t.end_.length < m) : skipComments n t = skipComments m t := by
  induction n generalizing m t with
  | zero =>
    have hne : t.type_ ≠ .tokenComment := fun h => absurd (hn h) (by omega)
    cases m with
    | zero => rfl
    | succ m => rw [skipComments, skipComments, if_neg hne]
  | succ n ih =>
    by_cases hc : t.type_ = .tokenComment
    · have hm' := hm hc
      have hn' := hn hc
      obtain ⟨k, rfl⟩ : ∃ k, m = k + 1 := ⟨m - 1, by omega⟩
      rw [skipComments, skipComments, if_pos hc, if_pos hc]
      -- the next token is behind this one
      have hlt : (readToken t.end_).type_ = .tokenComment →
          (readToken t.end_).end_.length < t.end_.length := fun h =>
        readToken_length_lt (by rw [h]; decide)
      apply ih
      · intro h
        have := hlt h
        omega
      · intro h
        have := hlt h
        omega
    · cases m with
      | zero => rw [skipComments, skipComments, if_neg hc]
      | succ m => rw [skipComments, skipComments, if_neg hc, if_neg hc]

theorem readToken_comment_lt {s : Location} (h : (readToken s).type_ = .tokenComment) :
    (readToken s).end_.length < s.length :=
  readToken_length_lt (by rw [h]; decide)

theorem skipComments_readToken {n : Nat} {s : Location} (h : s.length ≤ n) :
    skipComments n (readToken s) = skipCommentTokens s :=
  skipComments_congr (fun hc => Nat.lt_of_lt_of_le (readToken_comment_lt hc) h) readToken_comment_lt

theorem skipCommentTokens_of_comment {s : Location} (h : (readToken s).type_ = .tokenComment) :
    skipCommentTokens s = skipCommentTokens (readToken s).end_ := by
  have hlt := readToken_comment_lt h
  obtain ⟨n, hn⟩ : ∃ n, s.length = n + 1 := ⟨s.length - 1, by omega⟩
  rw [skipCommentTokens, hn, skipComments, if_pos h]
  exact skipComments_readToken (by omega)

theorem skipCommentTokens_of_ne {s : Location} (h : (readToken s).type_ ≠ .tokenComment) :
    skipCommentTokens s = readToken s := by
  rw [skipCommentTokens]
  cases s.length with
  | zero => rfl
  | succ n => rw [skipComments, if_neg h]

/-- What is found behind the comments is a token that is none, read somewhere
in what is left. -/
theorem skipCommentTokens_spec (s : Location) :
    (skipCommentTokens s).type_ ≠ .tokenComment ∧
      ∃ s', s' <:+ s ∧ skipCommentTokens s = readToken s' := by
  induction hlen : s.length using Nat.strong_induction_on generalizing s with
  | _ n ih =>
    by_cases hc : (readToken s).type_ = .tokenComment
    · have hlt := readToken_comment_lt hc
      rw [skipCommentTokens_of_comment hc]
      rcases ih _ (hlen ▸ hlt) _ rfl with ⟨hne, s', hs', heq⟩
      exact ⟨hne, s', hs'.trans (readToken_suffix s), heq⟩
    · rw [skipCommentTokens_of_ne hc]
      exact ⟨hc, s, List.suffix_rfl, rfl⟩

theorem skipCommentTokens_suffix (s : Location) : (skipCommentTokens s).end_ <:+ s := by
  rcases skipCommentTokens_spec s with ⟨-, s', hs', heq⟩
  rw [heq]
  exact (readToken_suffix s').trans hs'

theorem skipCommentTokens_length_lt {s : Location}
    (h : (skipCommentTokens s).type_ ≠ .tokenEndOfStream) :
    (skipCommentTokens s).end_.length < s.length := by
  rcases skipCommentTokens_spec s with ⟨-, s', hs', heq⟩
  rw [heq] at h ⊢
  exact Nat.lt_of_lt_of_le (readToken_length_lt h) hs'.length_le

/-- The text of a token and what follows it. -/
theorem text_append_end {t : Token} (h : t.end_ <:+ t.start_) : t.text ++ t.end_ = t.start_ := by
  rcases h with ⟨w, hw⟩
  rw [Token.text, ← hw, List.length_append, Nat.add_sub_cancel, List.take_left]

/-! ## Decoding a number -/

/-- `isDouble`, as the first loop of `decodeNumber` leaves it. -/
def isDouble (text : Bytes) : Bool :=
  text.any (fun c => c == 46 || c == 101 || c == 69 || c == 43) || text.tail.contains 45

/-- What the second loop of `decodeNumber` comes to. -/
inductive Digits where
  | integer (value : Nat)
  | double
  | notANumber
deriving DecidableEq, Repr

/-- The second loop of `decodeNumber`; `value` is a 64-bit number. -/
def decodeDigits (threshold lastDigitThreshold : Nat) : Nat → Bytes → Digits
  | value, [] => .integer value
  | value, c :: current =>
    if Decimal.isDigit c then
      let digit := c.toNat - 48
      if threshold ≤ value ∧ (current ≠ [] ∨ lastDigitThreshold < digit) then .double
      else decodeDigits threshold lastDigitThreshold ((value * 10 + digit) % 2 ^ 64) current
    else .notANumber

/-- The error of a number that is none. -/
def notANumber (token : Token) : ErrorInfo :=
  { token_ := token, message_ := ascii "'" ++ token.text ++ ascii "' is not a number." }

/-- `decodeDouble`. -/
def decodeDouble (scanDouble : Bytes → Option UInt64) (token : Token) : Except ErrorInfo Value :=
  match scanDouble token.text with
  | none => .error (notANumber token)
  | some value => .ok (.realValue value)

/-- `decodeNumber`: up to `maxInt` a number becomes a `LargestInt`, from there on
a `LargestUInt`; `-Value::LargestInt( value )` wraps around. -/
def decodeNumber (scanDouble : Bytes → Option UInt64) (token : Token) : Except ErrorInfo Value :=
  if isDouble token.text then decodeDouble scanDouble token
  else
    let isNegative := token.text.head? = some 45
    let current := if isNegative then token.text.tail else token.text
    let maxIntegerValue := if isNegative then 2 ^ 63 else 2 ^ 64 - 1
    match decodeDigits (maxIntegerValue / 10) (maxIntegerValue % 10) 0 current with
    | .notANumber => .error (notANumber token)
    | .double => decodeDouble scanDouble token
    | .integer value =>
      if isNegative then .ok (.intValue (Int.bmod (-value) (2 ^ 64)))
      else if value ≤ 2 ^ 31 - 1 then .ok (.intValue value)
      else .ok (.uintValue value)

/-! ## Decoding a string -/

/-- `codePointToUTF8`. -/
def codePointToUTF8 (cp : Nat) : Bytes :=
  if cp ≤ 0x7F then [UInt8.ofNat cp]
  else if cp ≤ 0x7FF then
    [UInt8.ofNat (0xC0 ||| (0x1F &&& (cp >>> 6))), UInt8.ofNat (0x80 ||| (0x3F &&& cp))]
  else if cp ≤ 0xFFFF then
    [UInt8.ofNat (0xE0 ||| (0xF &&& (cp >>> 12))), UInt8.ofNat (0x80 ||| (0x3F &&& (cp >>> 6))),
      UInt8.ofNat (0x80 ||| (0x3F &&& cp))]
  else if cp ≤ 0x10FFFF then
    [UInt8.ofNat (0xF0 ||| (0x7 &&& (cp >>> 18))), UInt8.ofNat (0x80 ||| (0x3F &&& (cp >>> 12))),
      UInt8.ofNat (0x80 ||| (0x3F &&& (cp >>> 6))), UInt8.ofNat (0x80 ||| (0x3F &&& cp))]
  else []

/-- What one character adds to `unicode`. -/
def hexValue (c : Byte) : Option Nat :=
  if 48 ≤ c ∧ c ≤ 57 then some (c.toNat - 48)
  else if 97 ≤ c ∧ c ≤ 102 then some (c.toNat - 97 + 10)
  else if 65 ≤ c ∧ c ≤ 70 then some (c.toNat - 65 + 10)
  else none

section Strings

variable (token : Token) (stop : Location)

/-- An error of a decoder. In the decoders of a string `stop` is their `end`,
and `current` has the bytes up to it. -/
def decodeError (message : String) (current : Bytes) : ErrorInfo :=
  { token_ := token, message_ := ascii message, extra_ := some (current ++ stop) }

/-- The loop of `decodeUnicodeEscapeSequence`. -/
def decodeHexDigits : Nat → Nat → Bytes → Except ErrorInfo (Nat × Bytes)
  | 0, unicode, current => .ok (unicode, current)
  | index + 1, unicode, current =>
    match hexValue (peek current) with
    | some digit => decodeHexDigits index (unicode * 16 + digit) current.tail
    | none =>
      .error (decodeError token stop
        "Bad unicode escape sequence in string: hexadecimal digit expected." current.tail)

/-- `decodeUnicodeEscapeSequence`. -/
def decodeUnicodeEscapeSequence (current : Bytes) : Except ErrorInfo (Nat × Bytes) :=
  if current.length < 4 then
    .error (decodeError token stop
      "Bad unicode escape sequence in string: four digits expected." current)
  else decodeHexDigits token stop 4 0 current

/-- `decodeUnicodeCodePoint`; the second half of a pair is taken as it comes. -/
def decodeUnicodeCodePoint (current : Bytes) : Except ErrorInfo (Nat × Bytes) :=
  match decodeUnicodeEscapeSequence token stop current with
  | .error e => .error e
  | .ok (unicode, current) =>
    if 0xD800 ≤ unicode ∧ unicode ≤ 0xDBFF then
      if current.length < 6 then
        .error (decodeError token stop
          "additional six characters expected to parse unicode surrogate pair." current)
      else if peek current = 92 ∧ peek current.tail = 117 then
        match decodeUnicodeEscapeSequence token stop current.tail.tail with
        | .error e => .error e
        | .ok (surrogatePair, current) =>
          .ok (0x10000 + ((unicode &&& 0x3FF) <<< 10) + (surrogatePair &&& 0x3FF), current)
      else
        .error (decodeError token stop
          "expecting another \\u token to begin the second half of a unicode surrogate pair"
          (if peek current = 92 then current.tail.tail else current.tail))
    else .ok (unicode, current)

/-- The escapes of one character. -/
def simpleEscape (c : Byte) : Option Byte :=
  if c = 34 then some 34
  else if c = 47 then some 47
  else if c = 92 then some 92
  else if c = 98 then some 8
  else if c = 102 then some 12
  else if c = 110 then some 10
  else if c = 114 then some 13
  else if c = 116 then some 9
  else none

/-- One turn of the loop of `decodeString`, on a character and what follows it:
what is added to `decoded`, and where `current` is then. -/
def decodeChar (c : Byte) (current : Bytes) : Except ErrorInfo (Bytes × Bytes) :=
  if c = 92 then
    match current with
    | [] => .error (decodeError token stop "Empty escape sequence in string" [])
    | escape :: current =>
      match simpleEscape escape with
      | some d => .ok ([d], current)
      | none =>
        if escape = 117 then
          match decodeUnicodeCodePoint token stop current with
          | .error e => .error e
          | .ok (unicode, current) => .ok (codePointToUTF8 unicode, current)
        else .error (decodeError token stop "Bad escape sequence in string" current)
  else .ok ([c], current)

/-- The loop of `decodeString`, for at most so many turns. -/
def decodeChars : Nat → Bytes → Bytes → Except ErrorInfo Bytes
  | 0, _, decoded => .ok decoded
  | _ + 1, [], decoded => .ok decoded
  | n + 1, c :: current, decoded =>
    if c = 34 then .ok decoded
    else
      match decodeChar token stop c current with
      | .error e => .error e
      | .ok (added, current) => decodeChars n current (decoded ++ added)

end Strings

/-- `decodeString( token, decoded )`: what stands between the quotes. -/
def decodeString (token : Token) : Except ErrorInfo Bytes :=
  let stop := token.start_.drop (token.text.length - 1)
  let current := (token.text.drop 1).dropLast
  decodeChars token stop current.length current []

/-! ## Where a decoder fails -/

/-- A decoder goes on behind what it has read, or fails somewhere in it. -/
inductive Decoding {α : Type} (token : Token) (stop : Location) (current : Bytes) :
    Except ErrorInfo (α × Bytes) → Prop where
  | ok {a : α} {rest : Bytes} (h : rest <:+ current) : Decoding token stop current (.ok (a, rest))
  | error {e : ErrorInfo} {c : Bytes} (htoken : e.token_ = token) (hc : c <:+ current)
      (hextra : e.extra_ = some (c ++ stop)) : Decoding token stop current (.error e)

section Strings

variable {token : Token} {stop : Location}

theorem Decoding.mono {α : Type} {current current' : Bytes} {r : Except ErrorInfo (α × Bytes)}
    (h : Decoding token stop current r) (hsuffix : current <:+ current') :
    Decoding token stop current' r := by
  cases h with
  | ok hrest => exact .ok (hrest.trans hsuffix)
  | error htoken hc hextra => exact .error htoken (hc.trans hsuffix) hextra

theorem decoding_decodeError {α : Type} (message : String) {c current : Bytes}
    (h : c <:+ current) :
    @Decoding α token stop current (.error (decodeError token stop message c)) :=
  .error rfl h rfl

theorem decodeHexDigits_decoding (n unicode : Nat) (current : Bytes) :
    Decoding token stop current (decodeHexDigits token stop n unicode current) := by
  induction n generalizing unicode current with
  | zero => exact .ok List.suffix_rfl
  | succ n ih =>
    rw [decodeHexDigits]
    cases hexValue (peek current) with
    | none => exact decoding_decodeError _ (List.tail_suffix current)
    | some digit => exact (ih _ _).mono (List.tail_suffix current)

theorem decodeUnicodeEscapeSequence_decoding (current : Bytes) :
    Decoding token stop current (decodeUnicodeEscapeSequence token stop current) := by
  unfold decodeUnicodeEscapeSequence
  split
  · exact decoding_decodeError _ List.suffix_rfl
  · exact decodeHexDigits_decoding _ _ _

theorem decodeUnicodeCodePoint_decoding (current : Bytes) :
    Decoding token stop current (decodeUnicodeCodePoint token stop current) := by
  have htail : ∀ s : Bytes, s.tail.tail <:+ s := fun s =>
    (List.tail_suffix s.tail).trans (List.tail_suffix s)
  have hfirst : Decoding token stop current _ := decodeUnicodeEscapeSequence_decoding current
  unfold decodeUnicodeCodePoint
  cases hd : decodeUnicodeEscapeSequence token stop current with
  | error e =>
    rw [hd] at hfirst
    cases hfirst with
    | error htoken hc hextra => exact .error htoken hc hextra
  | ok read =>
    rw [hd] at hfirst
    obtain ⟨unicode, rest⟩ := read
    cases hfirst with
    | ok hrest =>
      dsimp only
      split
      · split
        · exact decoding_decodeError _ hrest
        · split
          · -- the second half of a pair
            have hsecond : Decoding token stop rest.tail.tail _ :=
              decodeUnicodeEscapeSequence_decoding rest.tail.tail
            cases hd' : decodeUnicodeEscapeSequence token stop rest.tail.tail with
            | error e =>
              rw [hd'] at hsecond
              cases hsecond with
              | error htoken hc hextra =>
                exact .error htoken (hc.trans ((htail rest).trans hrest)) hextra
            | ok read' =>
              rw [hd'] at hsecond
              obtain ⟨surrogatePair, rest'⟩ := read'
              cases hsecond with
              | ok hrest' => exact .ok (hrest'.trans ((htail rest).trans hrest))
          · refine decoding_decodeError _ ?_
            split
            · exact (htail rest).trans hrest
            · exact (List.tail_suffix rest).trans hrest
      · exact .ok hrest

theorem decodeChar_plain {c : Byte} (h : c ≠ 92) (current : Bytes) :
    decodeChar token stop c current = .ok ([c], current) := by
  unfold decodeChar
  rw [if_neg h]

theorem decodeChar_simple {escape d : Byte} (h : simpleEscape escape = some d) (current : Bytes) :
    decodeChar token stop 92 (escape :: current) = .ok ([d], current) := by
  unfold decodeChar
  rw [if_pos rfl]
  dsimp only
  rw [h]

theorem decodeChar_unicode {current rest : Bytes} {unicode : Nat}
    (h : decodeUnicodeCodePoint token stop current = .ok (unicode, rest)) :
    decodeChar token stop 92 (117 :: current) = .ok (codePointToUTF8 unicode, rest) := by
  have hsimple : simpleEscape 117 = none := by decide
  unfold decodeChar
  rw [if_pos rfl]
  dsimp only
  rw [hsimple]
  dsimp only
  rw [if_pos rfl, h]

theorem decodeChar_decoding (c : Byte) (current : Bytes) :
    Decoding token stop current (decodeChar token stop c current) := by
  unfold decodeChar
  split
  · cases current with
    | nil => exact decoding_decodeError _ List.suffix_rfl
    | cons escape current =>
      have hcons := List.suffix_cons escape current
      dsimp only
      cases simpleEscape escape with
      | some d => exact .ok hcons
      | none =>
        dsimp only
        split
        · have hcode : Decoding token stop current _ := decodeUnicodeCodePoint_decoding current
          cases hd : decodeUnicodeCodePoint token stop current with
          | error e =>
            rw [hd] at hcode
            cases hcode with
            | error htoken hc hextra => exact .error htoken (hc.trans hcons) hextra
          | ok read =>
            rw [hd] at hcode
            obtain ⟨unicode, rest⟩ := read
            cases hcode with
            | ok hrest => exact .ok (hrest.trans hcons)
        · exact decoding_decodeError _ hcons
  · exact .ok List.suffix_rfl

/-- The error of a string is at the string, and its detail inside it. -/
theorem decodeChars_error {n : Nat} {current decoded : Bytes} {e : ErrorInfo}
    (h : decodeChars token stop n current decoded = .error e) :
    e.token_ = token ∧ ∃ c, c <:+ current ∧ e.extra_ = some (c ++ stop) := by
  induction n generalizing current decoded with
  | zero => cases h
  | succ n ih =>
    cases current with
    | nil => cases h
    | cons c current =>
      have hcons := List.suffix_cons c current
      have hchar : Decoding token stop current _ := decodeChar_decoding c current
      rw [decodeChars] at h
      split at h
      · cases h
      · cases hd : decodeChar token stop c current with
        | error e' =>
          rw [hd] at h hchar
          cases h
          cases hchar with
          | error htoken hc hextra => exact ⟨htoken, _, hc.trans hcons, hextra⟩
        | ok read =>
          rw [hd] at h hchar
          obtain ⟨added, rest⟩ := read
          cases hchar with
          | ok hrest =>
            rcases ih h with ⟨htoken, c', hc', hextra⟩
            exact ⟨htoken, c', hc'.trans (hrest.trans hcons), hextra⟩

end Strings

/-- The token stands in the document, and begins behind the spaces before it. -/
structure Token.StandsIn (document : Bytes) (t : Token) : Prop where
  start_ : t.start_ <:+ document
  end_ : t.end_ <:+ t.start_
  fresh : ∀ c ∈ t.start_.head?, isSpace c = false

theorem Token.StandsIn.mono {s document : Bytes} {t : Token} (h : t.StandsIn s)
    (hs : s <:+ document) : t.StandsIn document :=
  ⟨h.start_.trans hs, h.end_, h.fresh⟩

/-- The error stands in the document: its token does, and its detail within the
token. -/
structure ErrorIn (document : Bytes) (e : ErrorInfo) : Prop where
  token_ : e.token_.StandsIn document
  extra_ : ∀ extra ∈ e.extra_, extra <:+ e.token_.start_ ∧ e.token_.end_ <:+ extra

theorem ErrorIn.mono {s document : Bytes} {e : ErrorInfo} (h : ErrorIn s e) (hs : s <:+ document) :
    ErrorIn document e :=
  ⟨h.token_.mono hs, h.extra_⟩

theorem errorIn_of_token {document message : Bytes} {t : Token} (h : t.StandsIn document) :
    ErrorIn document { token_ := t, message_ := message } :=
  ⟨h, by simp⟩

theorem errorIn_of_decodeNumber {scanDouble : Bytes → Option UInt64} {document : Bytes} {t : Token}
    {e : ErrorInfo} (h : decodeNumber scanDouble t = .error e) (ht : t.StandsIn document) :
    ErrorIn document e := by
  have hnot : ErrorIn document (notANumber t) := errorIn_of_token ht
  have hdouble : ∀ e, decodeDouble scanDouble t = .error e → ErrorIn document e := by
    intro e h
    unfold decodeDouble at h
    split at h
    · cases h
      exact hnot
    · cases h
  unfold decodeNumber at h
  split at h
  · exact hdouble e h
  · dsimp only at h
    split at h
    · cases h
      exact hnot
    · exact hdouble e h
    · split at h
      · cases h
      · split at h <;> cases h

/-- Between its quotes a string has what stands up to `end`. -/
theorem content_append {t : Token} (hlen : 2 ≤ t.text.length) (hend : t.end_ <:+ t.start_) :
    ∃ q q', t.start_ = q :: ((t.text.drop 1).dropLast ++ t.start_.drop (t.text.length - 1)) ∧
      t.start_.drop (t.text.length - 1) = q' :: t.end_ := by
  have htext := text_append_end hend
  generalize hw : t.text = w at htext hlen ⊢
  cases w with
  | nil => simp at hlen
  | cons q w =>
    rcases List.eq_nil_or_concat w with hnil | ⟨content, q', hq'⟩
    · rw [hnil] at hlen
      simp at hlen
    · rw [List.concat_eq_append] at hq'
      subst hq'
      refine ⟨q, q', ?_, ?_⟩
      · rw [← htext]
        simp
      · rw [← htext]
        simp

theorem errorIn_of_decodeString {document : Bytes} {t : Token} {e : ErrorInfo}
    (h : decodeString t = .error e) (hlen : 2 ≤ t.text.length) (ht : t.StandsIn document) :
    ErrorIn document e := by
  rcases content_append hlen ht.end_ with ⟨q, q', heq, hstop⟩
  rcases decodeChars_error h with ⟨rfl, c, ⟨p, hp⟩, hextra⟩
  refine ⟨ht, ?_⟩
  intro extra hmem
  rw [hextra, Option.mem_some_iff] at hmem
  subst hmem
  refine ⟨⟨q :: p, ?_⟩, ⟨c ++ [q'], ?_⟩⟩
  · conv_rhs => rw [heq]
    rw [← hp, List.cons_append, List.append_assoc]
  · rw [hstop, List.append_assoc, List.singleton_append]

end Reader

end Json

end PicoDB
