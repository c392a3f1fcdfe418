import PicoDB.JsonTokens

/-!
# PicoDB.JsonReader — `Json::Reader::parse`

Values, objects and arrays are read by functions that call each other; `depth`
bounds how deep the calls nest, counting the turns of their loops as calls.
Comments are read over and their text is not kept: nothing that is modelled
asks a value for its comments.

-/

namespace PicoDB

namespace Json

namespace Reader

/-- The part of a `Reader` that a parse goes on. -/
structure State where
  current_ : Location
  errors_ : List ErrorInfo := []
deriving DecidableEq, Repr

namespace State

/-- `addError`. -/
def addError (error : ErrorInfo) (r : State) : State := { r with errors_ := r.errors_ ++ [error] }

/-- `recoverFromError`. Reading tokens records no errors, so there are none to
discard. -/
def recoverFromError (skipUntilToken : TokenType) (r : State) : State :=
  { r with current_ := skipUntil skipUntilToken (r.current_.length + 1) r.current_ }

/-- `addErrorAndRecover`. -/
def addErrorAndRecover (message : String) (token : Token) (skipUntilToken : TokenType)
    (r : State) : State :=
  (r.addError { token_ := token, message_ := ascii message }).recoverFromError skipUntilToken

/-- `currentValue() = value`, or the error of a decoder. -/
def decoded (value : Except ErrorInfo Value) (r : State) : Option Value × State :=
  match value with
  | .ok value => (some value, r)
  | .error error => (none, r.addError error)

end State

/-- `currentValue()[ name ]` and the value read into it: a key is a C string, and
the map has its keys in order. -/
def putMember (name : Bytes) (value : Value) : List (Bytes × Value) → List (Bytes × Value)
  | [] => [(cString name, value)]
  | m :: ms =>
    if cString name = m.1 then (cString name, value) :: ms
    else if cString name < m.1 then (cString name, value) :: m :: ms
    else m :: putMember name value ms

section Parse

variable (scanDouble : Bytes → Option UInt64)

mutual

/-- `readValue`: the value of the top of `nodes_`, or nothing when it returns
`false`. -/
def readValue : Nat → State → Option Value × State
  | 0, r => (none, r)
  | depth + 1, r =>
    let token := skipCommentTokens r.current_
    let r := { r with current_ := token.end_ }
    match token.type_ with
    | .tokenObjectBegin => readObject depth [] [] r
    | .tokenArrayBegin => readArray depth r
    | .tokenNumber => r.decoded (decodeNumber scanDouble token)
    -- the copy that is assigned is made with `strlen`
    | .tokenString => r.decoded ((decodeString token).map fun d => .stringValue (cString d))
    | .tokenTrue => (some (.booleanValue true), r)
    | .tokenFalse => (some (.booleanValue false), r)
    | .tokenNull => (some .nullValue, r)
    | _ =>
      (none, r.addError
        { token_ := token, message_ := ascii "Syntax error: value, object or array expected." })

/-- The loop of `readObject`; `name` is that of the last member, and empty before
the first. -/
def readObject : Nat → Bytes → List (Bytes × Value) → State → Option Value × State
  | 0, _, _, r => (none, r)
  | depth + 1, name, members, r =>
    let tokenName := skipCommentTokens r.current_
    let r := { r with current_ := tokenName.end_ }
    if tokenName.type_ = .tokenObjectEnd ∧ name = [] then (some (.objectValue members), r)
    else if tokenName.type_ ≠ .tokenString then
      (none, r.addErrorAndRecover "Missing '\x7d' or object member name" tokenName .tokenObjectEnd)
    else
      match decodeString tokenName with
      | .error e => (none, (r.addError e).recoverFromError .tokenObjectEnd)
      | .ok name =>
        let colon := readToken r.current_
        let r := { r with current_ := colon.end_ }
        if colon.type_ ≠ .tokenMemberSeparator then
          (none, r.addErrorAndRecover "Missing ':' after object member name" colon .tokenObjectEnd)
        else
          match readValue depth r with
          | (none, r) => (none, r.recoverFromError .tokenObjectEnd)
          | (some value, r) =>
            let comma := readToken r.current_
            if comma.type_ ≠ .tokenObjectEnd ∧ comma.type_ ≠ .tokenArraySeparator ∧
                comma.type_ ≠ .tokenComment then
              (none, { r with current_ := comma.end_ }.addErrorAndRecover
                "Missing ',' or '\x7d' in object declaration" comma .tokenObjectEnd)
            else
              -- behind a comment, every token but the closing brace passes for a comma
              let comma := skipComments (comma.end_.length + 1) comma
              let r := { r with current_ := comma.end_ }
              if comma.type_ = .tokenObjectEnd then
                (some (.objectValue (putMember name value members)), r)
              else readObject depth name (putMember name value members) r

/-- `readArray`, up to its loop. -/
def readArray : Nat → State → Option Value × State
  | 0, r => (none, r)
  | depth + 1, r =>
    let r := { r with current_ := skipSpaces r.current_ }
    if peek r.current_ = 93 then
      (some (.arrayValue []), { r with current_ := (readToken r.current_).end_ })
    else readElements depth [] r

/-- The loop of `readArray`. -/
def readElements : Nat → List Value → State → Option Value × State
  | 0, _, r => (none, r)
  | depth + 1, elements, r =>
    match readValue depth r with
    | (none, r) => (none, r.recoverFromError .tokenArrayEnd)
    | (some value, r) =>
      let token := skipCommentTokens r.current_
      let r := { r with current_ := token.end_ }
      if token.type_ ≠ .tokenArraySeparator ∧ token.type_ ≠ .tokenArrayEnd then
        (none, r.addErrorAndRecover "Missing ',' or ']' in array declaration" token .tokenArrayEnd)
      else if token.type_ = .tokenArrayEnd then (some (.arrayValue (elements ++ [value])), r)
      else readElements depth (elements ++ [value]) r

end

/-- A depth no document of this length goes beyond. -/
def depthOf (document : Bytes) : Nat := 3 * document.length + 1

/-- `parse`: the root, if the document is accepted, and the reader afterwards.
What follows the root is not looked at, comments apart. -/
def parse (document : Bytes) : Option Value × State :=
  let (root, r) := readValue scanDouble (depthOf document) { current_ := document }
  (root, { r with current_ := (skipCommentTokens r.current_).end_ })

/-- The reader as `pico_message` uses it. -/
def reader : Json.Reader := fun document => (parse scanDouble document).1

end Parse

/-! ## Where an error is -/

/-- The loop of `getLocationLineAndColumn`: the start of the line of `location`
and the number of line ends before it. -/
def skipLines (location : Location) : Location → Location → Nat → Location × Nat
  | [], lastLineStart, line => (lastLineStart, line)
  | [c], lastLineStart, line =>
    if location.length < 1 then
      if c = 13 ∨ c = 10 then ([], line + 1) else (lastLineStart, line)
    else (lastLineStart, line)
  | c :: d :: current, lastLineStart, line =>
    if location.length < current.length + 2 then
      if c = 13 ∧ d = 10 then skipLines location current current (line + 1)
      else if c = 13 ∨ c = 10 then skipLines location (d :: current) (d :: current) (line + 1)
      else skipLines location (d :: current) lastLineStart line
    else (lastLineStart, line)

/-- `getLocationLineAndColumn`: line and column, both counted from one. -/
def lineAndColumn (document : Bytes) (location : Location) : Nat × Int :=
  let (lastLineStart, line) := skipLines location document document 0
  (line + 1, (lastLineStart.length : Int) - location.length + 1)

/-- `sprintf( buffer, "%d", n )`. -/
def printInt (n : Int) : Bytes :=
  if n < 0 then 45 :: convertToString n.natAbs else convertToString n.natAbs

/-- `getLocationLineAndColumn`, as text. -/
def getLocationLineAndColumn (document : Bytes) (location : Location) : Bytes :=
  let (line, column) := lineAndColumn document location
  ascii "Line " ++ printInt line ++ ascii ", Column " ++ printInt column

/-- What `getFormattedErrorMessages` writes for one error. -/
def formatError (document : Bytes) (error : ErrorInfo) : Bytes :=
  ascii "* " ++ getLocationLineAndColumn document error.token_.start_ ++ ascii "\n" ++
    ascii "  " ++ error.message_ ++ ascii "\n" ++
    match error.extra_ with
    | some extra =>
      ascii "See " ++ getLocationLineAndColumn document extra ++ ascii " for detail.\n"
    | none => []

/-- `getFormattedErrorMessages`. -/
def getFormattedErrorMessages (document : Bytes) (r : State) : Bytes :=
  r.errors_.flatMap (formatError document)

end Reader

end Json

end PicoDB
