import PicoDB.JsonReader

/-!
# PicoDB.JsonGrammar — what `Json::Reader` accepts

`Accepts` is the grammar of the reader: which value stands at a location, and
where it ends. It has no depth, no reader state and no errors. It is wider than
JSON: comments go anywhere before a token, an object may end behind a comma
when the name before it is empty, and behind a comment any token will do for
the comma between two members.

* `outcome`: a call of the reader comes to a derivation, or to one error that
  stands in the document.
* `parse_eq_some_iff`: the documents that are accepted are those with a
  derivation, so no document is too deep or too long.
* `accepted_or_one_error`: a document is refused with one error and accepted with none.
-/

namespace PicoDB

namespace Json

namespace Reader

variable {scanDouble : Bytes → Option UInt64}

/-! ## The grammar -/

/-- What is being read: a value, the members of an object behind one of the
given name, an array, or the elements of an array behind the given ones. -/
inductive Phase where
  | value
  | members (name : Bytes) (ms : List (Bytes × Value))
  | array
  | elements (xs : List Value)

/-- What may follow a member: its comma may stand behind a comment. -/
def EndsMember (s : Location) : Prop :=
  (readToken s).type_ = .tokenObjectEnd ∨ (readToken s).type_ = .tokenArraySeparator ∨
    (readToken s).type_ = .tokenComment

/-- A value of the phase stands at the first location and ends at the second. -/
inductive Accepts (scanDouble : Bytes → Option UInt64) :
    Phase → Location → Value → Location → Prop where
  | null {s : Location} (h : (skipCommentTokens s).type_ = .tokenNull) :
      Accepts scanDouble .value s .nullValue (skipCommentTokens s).end_
  | true {s : Location} (h : (skipCommentTokens s).type_ = .tokenTrue) :
      Accepts scanDouble .value s (.booleanValue true) (skipCommentTokens s).end_
  | false {s : Location} (h : (skipCommentTokens s).type_ = .tokenFalse) :
      Accepts scanDouble .value s (.booleanValue false) (skipCommentTokens s).end_
  | number {s : Location} {x : Value} (h : (skipCommentTokens s).type_ = .tokenNumber)
      (hx : decodeNumber scanDouble (skipCommentTokens s) = .ok x) :
      Accepts scanDouble .value s x (skipCommentTokens s).end_
  | string {s : Location} {d : Bytes} (h : (skipCommentTokens s).type_ = .tokenString)
      (hd : decodeString (skipCommentTokens s) = .ok d) :
      Accepts scanDouble .value s (.stringValue (cString d)) (skipCommentTokens s).end_
  | object {s rest : Location} {x : Value} (h : (skipCommentTokens s).type_ = .tokenObjectBegin)
      (hx : Accepts scanDouble (.members [] []) (skipCommentTokens s).end_ x rest) :
      Accepts scanDouble .value s x rest
  | array {s rest : Location} {x : Value} (h : (skipCommentTokens s).type_ = .tokenArrayBegin)
      (hx : Accepts scanDouble .array (skipCommentTokens s).end_ x rest) :
      Accepts scanDouble .value s x rest
  | noMember {s : Location} {ms : List (Bytes × Value)}
      (h : (skipCommentTokens s).type_ = .tokenObjectEnd) :
      Accepts scanDouble (.members [] ms) s (.objectValue ms) (skipCommentTokens s).end_
  | lastMember {s s' : Location} {name₀ name : Bytes} {ms : List (Bytes × Value)} {x : Value}
      (h : (skipCommentTokens s).type_ = .tokenString)
      (hd : decodeString (skipCommentTokens s) = .ok name)
      (hcolon : (readToken (skipCommentTokens s).end_).type_ = .tokenMemberSeparator)
      (hx : Accepts scanDouble .value (readToken (skipCommentTokens s).end_).end_ x s')
      (hcomma : EndsMember s') (hend : (skipCommentTokens s').type_ = .tokenObjectEnd) :
      Accepts scanDouble (.members name₀ ms) s (.objectValue (putMember name x ms))
        (skipCommentTokens s').end_
  | member {s s' rest : Location} {name₀ name : Bytes} {ms : List (Bytes × Value)} {x y : Value}
      (h : (skipCommentTokens s).type_ = .tokenString)
      (hd : decodeString (skipCommentTokens s) = .ok name)
      (hcolon : (readToken (skipCommentTokens s).end_).type_ = .tokenMemberSeparator)
      (hx : Accepts scanDouble .value (readToken (skipCommentTokens s).end_).end_ x s')
      (hcomma : EndsMember s') (hend : (skipCommentTokens s').type_ ≠ .tokenObjectEnd)
      (hy : Accepts scanDouble (.members name (putMember name x ms)) (skipCommentTokens s').end_ y
        rest) :
      Accepts scanDouble (.members name₀ ms) s y rest
  | noElement {s : Location} (h : peek (skipSpaces s) = 93) :
      Accepts scanDouble .array s (.arrayValue []) (readToken (skipSpaces s)).end_
  | someElement {s rest : Location} {x : Value} (h : peek (skipSpaces s) ≠ 93)
      (hx : Accepts scanDouble (.elements []) (skipSpaces s) x rest) :
      Accepts scanDouble .array s x rest
  | lastElement {s s' : Location} {xs : List Value} {x : Value}
      (hx : Accepts scanDouble .value s x s')
      (hend : (skipCommentTokens s').type_ = .tokenArrayEnd) :
      Accepts scanDouble (.elements xs) s (.arrayValue (xs ++ [x])) (skipCommentTokens s').end_
  | element {s s' rest : Location} {xs : List Value} {x y : Value}
      (hx : Accepts scanDouble .value s x s')
      (hcomma : (skipCommentTokens s').type_ = .tokenArraySeparator)
      (hy : Accepts scanDouble (.elements (xs ++ [x])) (skipCommentTokens s').end_ y rest) :
      Accepts scanDouble (.elements xs) s y rest

/-! ## Tokens, by their type -/

theorem oneCharToken_eq_some {c : Byte} {type_ : TokenType} (h : oneCharToken c = some type_) :
    (type_ = .tokenObjectBegin ∧ c = 123) ∨ (type_ = .tokenObjectEnd ∧ c = 125) ∨
      (type_ = .tokenArrayBegin ∧ c = 91) ∨ (type_ = .tokenArrayEnd ∧ c = 93) ∨
      (type_ = .tokenArraySeparator ∧ c = 44) ∨ (type_ = .tokenMemberSeparator ∧ c = 58) ∨
      (type_ = .tokenEndOfStream ∧ c = 0) := by
  unfold oneCharToken at h
  split_ifs at h <;> simp_all

theorem wordToken_eq_some {c : Byte} {type_ : TokenType} {pattern : Bytes}
    (h : wordToken c = some (type_, pattern)) :
    (type_ = .tokenTrue ∧ pattern = ascii "rue") ∨ (type_ = .tokenFalse ∧ pattern = ascii "alse") ∨
      (type_ = .tokenNull ∧ pattern = ascii "ull") := by
  unfold wordToken at h
  split_ifs at h <;> simp_all

theorem checked_fst (type_ : TokenType) (read : Bool × Location) :
    (checked type_ read).1 = type_ ∧ read.1 = true ∨ (checked type_ read).1 = .tokenError := by
  unfold checked
  cases hread : read.1 with
  | false => exact Or.inr rfl
  | true => exact Or.inl ⟨rfl, rfl⟩

/-- A string token stands between two quotes. -/
theorem TokenAt.of_string {c : Byte} {s : Location} {r : TokenType × Location} (h : TokenAt c s r)
    (hr : r.1 = .tokenString) : c = 34 ∧ readString s = (true, r.2) := by
  cases h with
  | oneChar h => rcases oneCharToken_eq_some h with h | h | h | h | h | h | h <;> simp_all
  | string hc =>
    rcases checked_fst .tokenString (readString s) with ⟨-, hok⟩ | herror
    · exact ⟨hc, Prod.ext hok rfl⟩
    · rw [herror] at hr
      cases hr
  | comment hc =>
    rcases checked_fst .tokenComment (readComment s) with ⟨h, -⟩ | h <;> rw [h] at hr <;> cases hr
  | number => cases hr
  | word h =>
    rcases checked_fst _ (matchPattern _ s) with ⟨h', -⟩ | h' <;> rw [h'] at hr
    · rcases wordToken_eq_some h with h | h | h <;> rw [h.1] at hr <;> cases hr
    · cases hr
  | other => cases hr

theorem readString_length_lt {s r : Location} (h : readString s = (true, r)) :
    r.length < s.length := by
  fun_induction readString s with
  | case1 => cases h
  | case2 c =>
    rw [← (Prod.mk.inj h).2]
    simp
  | case3 d s ih =>
    have := ih h
    simp only [List.length_cons]
    omega
  | case4 d s =>
    cases h
    simp
  | case5 c d s _ _ ih =>
    have := ih h
    simp only [List.length_cons] at this ⊢
    omega

theorem two_le_length_of_string {s : Location} (h : (readToken s).type_ = .tokenString) :
    2 ≤ (readToken s).text.length := by
  have hcases := readTokenAt_cases (getNextChar (skipSpaces s)).1 (getNextChar (skipSpaces s)).2
  have hat := hcases.of_string h
  have hlt := readString_length_lt hat.2
  have hpeek : peek (skipSpaces s) = 34 := hat.1
  have hnil : skipSpaces s ≠ [] := by
    intro hnil
    rw [hnil] at hpeek
    cases hpeek
  have hpos := List.length_pos_iff.mpr hnil
  have hend : (readToken s).end_.length < (skipSpaces s).tail.length := hlt
  rw [List.length_tail] at hend
  rw [Token.text, List.length_take, readToken_start]
  omega

/-- Every token that is read stands where it was read. -/
theorem readToken_stands (s : Location) : (readToken s).StandsIn s := by
  refine ⟨skipSpaces_suffix s, (readToken_end_suffix s).trans (List.tail_suffix _), fun c hc => ?_⟩
  rw [readToken_start, skipSpaces] at hc
  have hhead := List.head?_dropWhile_not isSpace s
  rw [Option.mem_def.mp hc] at hhead
  exact hhead

theorem skipCommentTokens_stands (s : Location) : (skipCommentTokens s).StandsIn s := by
  rcases skipCommentTokens_spec s with ⟨-, s', hs', heq⟩
  rw [heq]
  exact (readToken_stands s').mono hs'

theorem errorIn_skipCommentTokens (s : Location) (message : Bytes) :
    ErrorIn s { token_ := skipCommentTokens s, message_ := message } :=
  errorIn_of_token (skipCommentTokens_stands s)

/-- An error of `decodeString` stands within the token of the string. -/
theorem errorIn_decodeString {s : Location} {e : ErrorInfo}
    (htype : (skipCommentTokens s).type_ = .tokenString)
    (h : decodeString (skipCommentTokens s) = .error e) : ErrorIn s e := by
  have hlen : 2 ≤ (skipCommentTokens s).text.length := by
    rcases skipCommentTokens_spec s with ⟨-, s', -, heq⟩
    rw [heq] at htype ⊢
    exact two_le_length_of_string htype
  exact errorIn_of_decodeString h hlen (skipCommentTokens_stands s)

/-! ## Derivations take something off the document -/

/-- What a derivation leaves is the end of what it was given. -/
theorem Accepts.suffix {p : Phase} {s rest : Location} {x : Value}
    (h : Accepts scanDouble p s x rest) : rest <:+ s := by
  induction h with
  | null => exact skipCommentTokens_suffix _
  | true => exact skipCommentTokens_suffix _
  | false => exact skipCommentTokens_suffix _
  | number => exact skipCommentTokens_suffix _
  | string => exact skipCommentTokens_suffix _
  | object h _ ih => exact ih.trans (skipCommentTokens_suffix _)
  | array h _ ih => exact ih.trans (skipCommentTokens_suffix _)
  | noMember => exact skipCommentTokens_suffix _
  | lastMember h hd hcolon hx hcomma hend ih =>
    exact (skipCommentTokens_suffix _).trans
      (ih.trans ((readToken_suffix _).trans (skipCommentTokens_suffix _)))
  | member h hd hcolon hx hcomma hend hy ih ihy =>
    exact ihy.trans ((skipCommentTokens_suffix _).trans
      (ih.trans ((readToken_suffix _).trans (skipCommentTokens_suffix _))))
  | noElement => exact (readToken_suffix _).trans (skipSpaces_suffix _)
  | someElement h _ ih => exact ih.trans (skipSpaces_suffix _)
  | lastElement hx hend ih => exact (skipCommentTokens_suffix _).trans ih
  | element hx hcomma hy ih ihy => exact ihy.trans ((skipCommentTokens_suffix _).trans ih)

/-- A value is at least one byte long. -/
theorem Accepts.length_lt {s rest : Location} {x : Value}
    (h : Accepts scanDouble .value s x rest) : rest.length < s.length := by
  have hatom : ∀ {type_ : TokenType}, (skipCommentTokens s).type_ = type_ →
      type_ ≠ .tokenEndOfStream → (skipCommentTokens s).end_.length < s.length := by
    rintro _ rfl hne
    exact skipCommentTokens_length_lt hne
  cases h with
  | null h => exact hatom h (by decide)
  | true h => exact hatom h (by decide)
  | false h => exact hatom h (by decide)
  | number h => exact hatom h (by decide)
  | string h => exact hatom h (by decide)
  | object h hx => exact Nat.lt_of_le_of_lt hx.suffix.length_le (hatom h (by decide))
  | array h hx => exact Nat.lt_of_le_of_lt hx.suffix.length_le (hatom h (by decide))

/-! ## A call of the reader comes to a derivation or to an error -/

section Calls

variable (scanDouble) in
/-- The function that reads a phase. -/
def read : Phase → Nat → State → Option Value × State
  | .value => readValue scanDouble
  | .members name ms => fun depth => readObject scanDouble depth name ms
  | .array => readArray scanDouble
  | .elements xs => fun depth => readElements scanDouble depth xs

/-- The depth it takes at most on so many bytes. -/
def depthFor : Phase → Nat → Nat
  | .value, n => 3 * n + 1
  | .members _ _, n => 3 * n + 1
  | .array, n => 3 * n + 3
  | .elements _, n => 3 * n + 2

/-- How a call may come back. -/
inductive Outcome (scanDouble : Bytes → Option UInt64) (p : Phase) (r : State) :
    Option Value × State → Prop where
  | accepted {x : Value} {r' : State} (h : Accepts scanDouble p r.current_ x r'.current_)
      (herrors : r'.errors_ = r.errors_) : Outcome scanDouble p r (some x, r')
  | failed {e : ErrorInfo} {r' : State} (he : ErrorIn r.current_ e)
      (herrors : r'.errors_ = r.errors_ ++ [e]) : Outcome scanDouble p r (none, r')

@[simp] theorem addError_errors (e : ErrorInfo) (r : State) :
    (r.addError e).errors_ = r.errors_ ++ [e] := rfl

@[simp] theorem recoverFromError_errors (type_ : TokenType) (r : State) :
    (r.recoverFromError type_).errors_ = r.errors_ := rfl

@[simp] theorem addErrorAndRecover_errors (message : String) (t : Token) (type_ : TokenType)
    (r : State) : (r.addErrorAndRecover message t type_).errors_ =
      r.errors_ ++ [{ token_ := t, message_ := ascii message }] := rfl

/-- A call that ends with another one. -/
theorem Outcome.along {p q : Phase} {r r' : State} {result : Option Value × State}
    (h : Outcome scanDouble p r' result) (hs : r'.current_ <:+ r.current_)
    (he : r'.errors_ = r.errors_)
    (hstep : ∀ x rest, Accepts scanDouble p r'.current_ x rest →
      Accepts scanDouble q r.current_ x rest) : Outcome scanDouble q r result := by
  cases h with
  | accepted hx herrors => exact .accepted (hstep _ _ hx) (herrors.trans he)
  | failed hin herrors => exact .failed (hin.mono hs) (he ▸ herrors)

/-- A call that ends at a token it cannot use. -/
theorem Outcome.ofToken {p : Phase} {r r' : State} {message : String} {t : Token}
    {type_ : TokenType} (ht : t.StandsIn r.current_) (he : r'.errors_ = r.errors_) :
    Outcome scanDouble p r (none, r'.addErrorAndRecover message t type_) := by
  refine .failed (e := { token_ := t, message_ := ascii message })
    (errorIn_of_token ht) ?_
  rw [addErrorAndRecover_errors, he]

/-- Step lemma of `readValue`, for what it does without calling the others. -/
theorem outcome_decoded {r : State} {value : Except ErrorInfo Value}
    (hok : ∀ x, value = .ok x →
      Accepts scanDouble .value r.current_ x (skipCommentTokens r.current_).end_)
    (herror : ∀ e, value = .error e → ErrorIn r.current_ e) :
    Outcome scanDouble .value r
      ({ r with current_ := (skipCommentTokens r.current_).end_ }.decoded value) := by
  cases value with
  | ok x => exact .accepted (hok x rfl) rfl
  | error e => exact .failed (herror e rfl) rfl

/-- Step lemma of `readValue`, with what it calls as hypotheses. -/
theorem outcome_value {depth : Nat} {r : State}
    (hmembers : ∀ r', r'.current_.length < r.current_.length →
      Outcome scanDouble (.members [] []) r' (readObject scanDouble depth [] [] r'))
    (harray : ∀ r', r'.current_.length < r.current_.length →
      Outcome scanDouble .array r' (readArray scanDouble depth r')) :
    Outcome scanDouble .value r (readValue scanDouble (depth + 1) r) := by
  have hstands := skipCommentTokens_stands r.current_
  have hsuffix := skipCommentTokens_suffix r.current_
  rw [readValue]
  split
  · rename_i h
    have hlt := skipCommentTokens_length_lt (s := r.current_) (by rw [h]; decide)
    have hread := hmembers { r with current_ := (skipCommentTokens r.current_).end_ } hlt
    exact hread.along hsuffix rfl fun _ _ hx => .object h hx
  · rename_i h
    have hlt := skipCommentTokens_length_lt (s := r.current_) (by rw [h]; decide)
    exact (harray { r with current_ := (skipCommentTokens r.current_).end_ } hlt).along hsuffix rfl
      fun _ _ hx => .array h hx
  · rename_i h
    exact outcome_decoded (fun x hx => .number h hx)
      fun e he => errorIn_of_decodeNumber he hstands
  · rename_i h
    apply outcome_decoded
    · intro x hx
      rcases map_eq_ok hx with ⟨d, hd, rfl⟩
      exact .string h hd
    · intro e he
      cases hd : decodeString (skipCommentTokens r.current_) with
      | ok d =>
        rw [hd] at he
        cases he
      | error e' =>
        rw [hd] at he
        cases he
        exact errorIn_decodeString h hd
  · rename_i h
    exact .accepted (.true h) rfl
  · rename_i h
    exact .accepted (.false h) rfl
  · rename_i h
    exact .accepted (.null h) rfl
  · exact .failed (errorIn_skipCommentTokens _ _) rfl

/-- The token behind a member, once its comments are skipped. -/
theorem closing (s : Location) :
    skipComments ((readToken s).end_.length + 1) (readToken s) = skipCommentTokens s :=
  skipComments_congr (fun _ => Nat.lt_succ_self _) readToken_comment_lt

/-- Step lemma of `readObject`. -/
theorem outcome_members {depth : Nat} {name₀ : Bytes} {ms : List (Bytes × Value)} {r : State}
    (hvalue : ∀ r', r'.current_.length < r.current_.length →
      Outcome scanDouble .value r' (readValue scanDouble depth r'))
    (hmembers : ∀ name ms r', r'.current_.length < r.current_.length →
      Outcome scanDouble (.members name ms) r' (readObject scanDouble depth name ms r')) :
    Outcome scanDouble (.members name₀ ms) r (readObject scanDouble (depth + 1) name₀ ms r) := by
  have hsuffix := skipCommentTokens_suffix r.current_
  rw [readObject]
  dsimp only
  split
  · rename_i h
    obtain ⟨hend, rfl⟩ := h
    exact .accepted (.noMember hend) rfl
  · split
    · exact .failed (errorIn_skipCommentTokens _ _) rfl
    · rename_i htype
      rw [not_not] at htype
      have hlt := skipCommentTokens_length_lt (s := r.current_) (by rw [htype]; decide)
      split
      · rename_i e hd
        exact .failed (errorIn_decodeString htype hd) rfl
      · rename_i name hd
        have hcolonIn := readToken_suffix (skipCommentTokens r.current_).end_
        split
        · have hstands := readToken_stands (skipCommentTokens r.current_).end_
          exact .ofToken (hstands.mono hsuffix) rfl
        · rename_i hcolon
          rw [not_not] at hcolon
          have hlt' := Nat.lt_of_le_of_lt hcolonIn.length_le hlt
          have hv := hvalue
            { r with current_ := (readToken (skipCommentTokens r.current_).end_).end_ } hlt'
          split
          · rename_i r' hr'
            rw [hr'] at hv
            cases hv with
            | failed he herrors =>
              exact .failed (he.mono (hcolonIn.trans hsuffix)) herrors
          · rename_i x r' hr'
            rw [hr'] at hv
            cases hv with
            | accepted hx herrors =>
              have hmid : r'.current_ <:+ r.current_ := hx.suffix.trans (hcolonIn.trans hsuffix)
              have hlt'' : r'.current_.length < r.current_.length :=
                Nat.lt_of_le_of_lt hx.suffix.length_le hlt'
              have hlast := skipCommentTokens_suffix r'.current_
              rw [closing]
              split
              · have hstands := readToken_stands r'.current_
                exact .ofToken (hstands.mono hmid) herrors
              · rename_i hcomma
                have hends : EndsMember r'.current_ := by
                  unfold EndsMember
                  tauto
                split
                · rename_i hend
                  exact .accepted (.lastMember htype hd hcolon hx hends hend) herrors
                · rename_i hend
                  exact (hmembers name (putMember name x ms)
                    { r' with current_ := (skipCommentTokens r'.current_).end_ }
                    (Nat.lt_of_le_of_lt hlast.length_le hlt'')).along (hlast.trans hmid) herrors
                    fun _ _ hy => .member htype hd hcolon hx hends hend hy

/-- Step lemma of `readArray`. -/
theorem outcome_array {depth : Nat} {r : State}
    (helements : ∀ r', r'.current_.length ≤ r.current_.length →
      Outcome scanDouble (.elements []) r' (readElements scanDouble depth [] r')) :
    Outcome scanDouble .array r (readArray scanDouble (depth + 1) r) := by
  have hsuffix := skipSpaces_suffix r.current_
  rw [readArray]
  dsimp only
  split
  · rename_i h
    exact .accepted (.noElement h) rfl
  · rename_i h
    have hread := helements { r with current_ := skipSpaces r.current_ } hsuffix.length_le
    exact hread.along hsuffix rfl fun _ _ hx => .someElement h hx

/-- Step lemma of the loop of `readArray`. -/
theorem outcome_elements {depth : Nat} {xs : List Value} {r : State}
    (hvalue : Outcome scanDouble .value r (readValue scanDouble depth r))
    (helements : ∀ xs r', r'.current_.length < r.current_.length →
      Outcome scanDouble (.elements xs) r' (readElements scanDouble depth xs r')) :
    Outcome scanDouble (.elements xs) r (readElements scanDouble (depth + 1) xs r) := by
  rw [readElements]
  dsimp only
  split
  · rename_i r' hr'
    rw [hr'] at hvalue
    cases hvalue with
    | failed he herrors => exact .failed he herrors
  · rename_i x r' hr'
    rw [hr'] at hvalue
    cases hvalue with
    | accepted hx herrors =>
      have hsuffix := hx.suffix
      have hlast := skipCommentTokens_suffix r'.current_
      split
      · have hstands := skipCommentTokens_stands r'.current_
        exact .ofToken (hstands.mono hsuffix) herrors
      · rename_i hcomma
        split
        · rename_i hend
          exact .accepted (.lastElement hx hend) herrors
        · rename_i hend
          have hcomma' : (skipCommentTokens r'.current_).type_ = .tokenArraySeparator := by tauto
          exact (helements (xs ++ [x])
            { r' with current_ := (skipCommentTokens r'.current_).end_ }
            (Nat.lt_of_le_of_lt hlast.length_le hx.length_lt)).along (hlast.trans hsuffix) herrors
            fun _ _ hy => .element hx hcomma' hy

/-- **Every call comes to a derivation or to one error**, given depth enough for
the bytes that are left. -/
theorem outcome (depth : Nat) (p : Phase) (r : State) (h : depthFor p r.current_.length ≤ depth) :
    Outcome scanDouble p r (read scanDouble p depth r) := by
  -- induction on the depth; a call that reads a token first leaves fewer bytes to the
  -- calls it makes
  induction depth generalizing p r with
  | zero => cases p <;> simp [depthFor] at h
  | succ depth ih =>
    cases p with
    | value =>
      simp only [depthFor] at h
      apply outcome_value
      · intro r' hlt
        exact ih (.members [] []) r' (by simp only [depthFor]; omega)
      · intro r' hlt
        exact ih .array r' (by simp only [depthFor]; omega)
    | members name ms =>
      simp only [depthFor] at h
      apply outcome_members
      · intro r' hlt
        exact ih .value r' (by simp only [depthFor]; omega)
      · intro name ms r' hlt
        exact ih (.members name ms) r' (by simp only [depthFor]; omega)
    | array =>
      simp only [depthFor] at h
      apply outcome_array
      intro r' hle
      exact ih (.elements []) r' (by simp only [depthFor]; omega)
    | elements xs =>
      simp only [depthFor] at h
      apply outcome_elements
      · exact ih .value r (by simp only [depthFor]; omega)
      · intro xs r' hlt
        exact ih (.elements xs) r' (by simp only [depthFor]; omega)

theorem not_ends {s : Location} (h : EndsMember s) :
    ¬ ((readToken s).type_ ≠ .tokenObjectEnd ∧ (readToken s).type_ ≠ .tokenArraySeparator ∧
      (readToken s).type_ ≠ .tokenComment) := by
  unfold EndsMember at h
  tauto

/-- Whatever has a derivation is read, given the depth. -/
theorem read_of_accepts {p : Phase} {s rest : Location} {x : Value}
    (h : Accepts scanDouble p s x rest) (depth : Nat) (hdepth : depthFor p s.length ≤ depth)
    (errors : List ErrorInfo) :
    read scanDouble p depth ⟨s, errors⟩ = (some x, ⟨rest, errors⟩) := by
  -- on the derivation; each of its rules is one turn of the function that reads its phase
  induction h generalizing depth with
  | null h =>
    obtain ⟨depth, rfl⟩ : ∃ d, depth = d + 1 := ⟨depth - 1, by simp [depthFor] at hdepth; omega⟩
    simp only [read, readValue, h]
  | true h =>
    obtain ⟨depth, rfl⟩ : ∃ d, depth = d + 1 := ⟨depth - 1, by simp [depthFor] at hdepth; omega⟩
    simp only [read, readValue, h]
  | false h =>
    obtain ⟨depth, rfl⟩ : ∃ d, depth = d + 1 := ⟨depth - 1, by simp [depthFor] at hdepth; omega⟩
    simp only [read, readValue, h]
  | number h hx =>
    obtain ⟨depth, rfl⟩ : ∃ d, depth = d + 1 := ⟨depth - 1, by simp [depthFor] at hdepth; omega⟩
    simp only [read, readValue, h, hx, State.decoded]
  | string h hd =>
    obtain ⟨depth, rfl⟩ : ∃ d, depth = d + 1 := ⟨depth - 1, by simp [depthFor] at hdepth; omega⟩
    simp only [read, readValue, h, hd, State.decoded, Except.map]
  | @object s rest x h hx ih =>
    have hlt := skipCommentTokens_length_lt (s := s) (by rw [h]; decide)
    simp only [depthFor] at hdepth ih
    obtain ⟨depth, rfl⟩ : ∃ d, depth = d + 1 := ⟨depth - 1, by omega⟩
    have hread := ih depth (by omega)
    simp only [read] at hread
    simp only [read, readValue, h, hread]
  | @array s rest x h hx ih =>
    have hlt := skipCommentTokens_length_lt (s := s) (by rw [h]; decide)
    simp only [depthFor] at hdepth ih
    obtain ⟨depth, rfl⟩ : ∃ d, depth = d + 1 := ⟨depth - 1, by omega⟩
    have hread := ih depth (by omega)
    simp only [read] at hread
    simp only [read, readValue, h, hread]
  | noMember h =>
    obtain ⟨depth, rfl⟩ : ∃ d, depth = d + 1 := ⟨depth - 1, by simp [depthFor] at hdepth; omega⟩
    simp only [read, readObject, h, and_self, if_true]
  | @lastMember s s' name₀ name ms x h hd hcolon hx hcomma hend ih =>
    have hlt := skipCommentTokens_length_lt (s := s) (by rw [h]; decide)
    have hle := (readToken_suffix (skipCommentTokens s).end_).length_le
    simp only [depthFor] at hdepth ih
    obtain ⟨depth, rfl⟩ : ∃ d, depth = d + 1 := ⟨depth - 1, by omega⟩
    have hread := ih depth (by omega)
    simp only [read] at hread
    simp only [read, readObject, h, hd, hcolon, hread, closing, hend, if_neg (not_ends hcomma),
      reduceCtorEq, false_and, if_false, ne_eq, not_true, if_true]
  | @member s s' rest name₀ name ms x y h hd hcolon hx hcomma hend hy ih ihy =>
    have hlt := skipCommentTokens_length_lt (s := s) (by rw [h]; decide)
    have hle := (readToken_suffix (skipCommentTokens s).end_).length_le
    have hle' := (skipCommentTokens_suffix s').length_le
    have hmid := hx.length_lt
    simp only [depthFor] at hdepth ih ihy
    obtain ⟨depth, rfl⟩ : ∃ d, depth = d + 1 := ⟨depth - 1, by omega⟩
    have hread := ih depth (by omega)
    have hnext := ihy depth (by omega)
    simp only [read] at hread hnext
    simp only [read, readObject, h, hd, hcolon, hread, closing, hend, if_neg (not_ends hcomma),
      reduceCtorEq, false_and, if_false, ne_eq, not_true, hnext]
  | noElement h =>
    obtain ⟨depth, rfl⟩ : ∃ d, depth = d + 1 := ⟨depth - 1, by simp [depthFor] at hdepth; omega⟩
    simp only [read, readArray, h, if_true]
  | @someElement s rest x h hx ih =>
    have hle := (skipSpaces_suffix s).length_le
    simp only [depthFor] at hdepth ih
    obtain ⟨depth, rfl⟩ : ∃ d, depth = d + 1 := ⟨depth - 1, by omega⟩
    have hread := ih depth (by omega)
    simp only [read] at hread
    simp only [read, readArray, if_neg h, hread]
  | lastElement hx hend ih =>
    simp only [depthFor] at hdepth ih
    obtain ⟨depth, rfl⟩ : ∃ d, depth = d + 1 := ⟨depth - 1, by omega⟩
    have hread := ih depth (by omega)
    simp only [read] at hread
    simp only [read, readElements, hread, hend, ne_eq, not_true, and_false, if_false, if_true]
  | @element s s' rest xs x y hx hcomma hy ih ihy =>
    have hlt := hx.length_lt
    have hle := (skipCommentTokens_suffix s').length_le
    simp only [depthFor] at hdepth ih ihy
    obtain ⟨depth, rfl⟩ : ∃ d, depth = d + 1 := ⟨depth - 1, by omega⟩
    have hread := ih depth (by omega)
    have hnext := ihy depth (by omega)
    simp only [read] at hread hnext
    simp only [read, readElements, hread, hcomma, ne_eq, not_true, false_and, if_false,
      reduceCtorEq, hnext]

end Calls

/-- What is read is determined by where it is read. -/
theorem Accepts.unique {p : Phase} {s rest rest' : Location} {x x' : Value}
    (h : Accepts scanDouble p s x rest) (h' : Accepts scanDouble p s x' rest') :
    x = x' ∧ rest = rest' := by
  have hread := read_of_accepts h (depthFor p s.length) le_rfl []
  rw [read_of_accepts h' (depthFor p s.length) le_rfl []] at hread
  rw [Prod.mk.injEq, Option.some.injEq, State.mk.injEq] at hread
  exact ⟨hread.1.symm, hread.2.1.symm⟩

/-! ## Documents -/

section Documents

variable (scanDouble)

theorem parse_errors (document : Bytes) : (parse scanDouble document).2.errors_ =
    (readValue scanDouble (depthOf document) { current_ := document }).2.errors_ := rfl

/-- What `parse` comes to: a derivation of the document, or one error. -/
theorem outcome_parse (document : Bytes) :
    Outcome scanDouble .value { current_ := document }
      (readValue scanDouble (depthOf document) { current_ := document }) :=
  outcome (depthOf document) .value { current_ := document } le_rfl

end Documents

/-- **The reader accepts what the grammar derives**, with the value it derives,
however long or deep the document is. -/
theorem parse_eq_some_iff {document : Bytes} {x : Value} :
    (parse scanDouble document).1 = some x ↔ ∃ rest, Accepts scanDouble .value document x rest := by
  change (readValue scanDouble (depthOf document) { current_ := document }).1 = some x ↔ _
  constructor
  · intro h
    have hout := outcome_parse scanDouble document
    generalize readValue scanDouble (depthOf document) { current_ := document } = result at h hout
    cases hout with
    | accepted hx herrors =>
      cases h
      exact ⟨_, hx⟩
    | failed he herrors => cases h
  · rintro ⟨rest, hx⟩
    have hread := read_of_accepts hx (depthOf document) le_rfl []
    simp only [read] at hread
    rw [hread]

/-- A document that is accepted leaves no error behind. -/
theorem no_error_of_some {document : Bytes} {x : Value}
    (h : (parse scanDouble document).1 = some x) : (parse scanDouble document).2.errors_ = [] := by
  rw [parse_errors]
  change (readValue scanDouble (depthOf document) { current_ := document }).1 = _ at h
  have hout := outcome_parse scanDouble document
  generalize readValue scanDouble (depthOf document) { current_ := document } = result at h hout ⊢
  cases hout with
  | accepted _ herrors => exact herrors
  | failed => cases h

/-- One that is refused leaves exactly one, although `recoverFromError` goes on to look for
the end of what is broken. -/
theorem one_error_of_none {document : Bytes} (h : (parse scanDouble document).1 = none) :
    ∃ e, (parse scanDouble document).2.errors_ = [e] ∧ ErrorIn document e := by
  rw [parse_errors]
  change (readValue scanDouble (depthOf document) { current_ := document }).1 = _ at h
  have hout := outcome_parse scanDouble document
  generalize readValue scanDouble (depthOf document) { current_ := document } = result at h hout ⊢
  cases hout with
  | accepted => cases h
  | failed he herrors => exact ⟨_, herrors, he⟩

theorem formatError_ne_nil (document : Bytes) (e : ErrorInfo) : formatError document e ≠ [] := by
  simp [formatError, ascii]

/-- **One error or none.** A document with a derivation is accepted without an
error; any other is refused with one error, which stands in the document, and
only then is there a message. -/
theorem accepted_or_one_error (document : Bytes) :
    (∃ x rest, Accepts scanDouble .value document x rest ∧
        (parse scanDouble document).1 = some x ∧ (parse scanDouble document).2.errors_ = [] ∧
        getFormattedErrorMessages document (parse scanDouble document).2 = []) ∨
      ((∀ x rest, ¬ Accepts scanDouble .value document x rest) ∧
        (parse scanDouble document).1 = none ∧
        (∃ e, (parse scanDouble document).2.errors_ = [e] ∧ ErrorIn document e) ∧
        getFormattedErrorMessages document (parse scanDouble document).2 ≠ []) := by
  cases hroot : (parse scanDouble document).1 with
  | some x =>
    left
    obtain ⟨rest, hx⟩ := parse_eq_some_iff.mp hroot
    have hnone := no_error_of_some hroot
    refine ⟨x, rest, hx, rfl, hnone, ?_⟩
    rw [getFormattedErrorMessages, hnone, List.flatMap_nil]
  | none =>
    right
    obtain ⟨e, hone, he⟩ := one_error_of_none hroot
    refine ⟨fun x rest hx => ?_, rfl, ⟨e, hone, he⟩, ?_⟩
    · rw [parse_eq_some_iff.mpr ⟨rest, hx⟩] at hroot
      cases hroot
    · rw [getFormattedErrorMessages, hone, List.flatMap_singleton]
      exact formatError_ne_nil document e

end Reader

end Json

end PicoDB
