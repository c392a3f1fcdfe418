import PicoDB.JsonGrammar
import PicoDB.Lib.PrefixCode

/-!
# PicoDB.JsonWindow — how much of a document the reader looks at

A token depends on its own bytes and on at most the next few. Inside an object
or an array these are never the last bytes that matter, since the closing
bracket is still to come (`Closes`). So an object or an array is read from its
own bytes alone (`accepts_append`): whatever follows it may be replaced.
-/

namespace PicoDB

namespace Json

/-- An object or an array. -/
def Value.Bracketed : Value → Prop
  | .objectValue _ => True
  | .arrayValue _ => True
  | _ => False

namespace Reader

variable {scanDouble : Bytes → Option UInt64}

/-- `'}'` or `']'`. -/
def Bracket (c : Byte) : Prop := c = 125 ∨ c = 93

/-- A closing bracket is still to come. -/
def Closes (b : Bytes) : Prop := (125 : Byte) ∈ b ∨ (93 : Byte) ∈ b

theorem Closes.ne_nil {b : Bytes} (h : Closes b) : b ≠ [] := by
  rintro rfl
  simp [Closes] at h

theorem Closes.append_left {b : Bytes} (h : Closes b) (p : Bytes) : Closes (p ++ b) := by
  unfold Closes at h ⊢
  simp only [List.mem_append]
  tauto

/-- A bracket is still to come in front of what begins with it. -/
theorem closes_cons_of_bracket {c : Byte} {b : Bytes} (h : Bracket c) : Closes (c :: b) := by
  unfold Closes
  rcases h with rfl | rfl <;> simp

/-! ## What a scan does not look at -/

@[simp] theorem readString_quote (s : Location) : readString (34 :: s) = (true, s) := by
  cases s with
  | nil => rfl
  | cons d s => rfl

@[simp] theorem readString_backslash (d : Byte) (s : Location) :
    readString (92 :: d :: s) = readString s := rfl

theorem readString_cons {c : Byte} (h92 : c ≠ 92) (h34 : c ≠ 34) (s : Location) :
    readString (c :: s) = readString s := by
  cases s with
  | nil => simp [readString, h34]
  | cons d s => rw [readString, if_neg h92, if_neg h34]

theorem readString_false {s : Location} (h : (readString s).1 = false) : (readString s).2 = [] := by
  fun_induction readString s with
  | case1 => rfl
  | case2 => rfl
  | case3 d s ih => exact ih h
  | case4 => cases h
  | case5 c d s _ _ ih => exact ih h

/-- What is behind the closing quote is not looked at. -/
theorem readString_append {w u : Location} (u' : Location) (h : readString (w ++ u) = (true, u)) :
    readString (w ++ u') = (true, u') := by
  have hself : ∀ p : Location, readString u ≠ (true, p ++ u) := by
    intro p h
    have hlt := readString_length_lt h
    rw [List.length_append] at hlt
    omega
  fun_induction readString w with
  | case1 => exact absurd h (hself [])
  | case2 c =>
    by_cases hq : c = 34
    · rw [hq]
      exact readString_quote u'
    · exfalso
      rw [List.singleton_append] at h
      by_cases hb : c = 92
      · subst hb
        cases u with
        | nil => cases h
        | cons d u =>
          rw [readString_backslash] at h
          have hlt := readString_length_lt h
          simp at hlt
      · rw [readString_cons hb hq] at h
        exact hself [] h
  | case3 d w ih =>
    rw [List.cons_append, List.cons_append, readString_backslash] at h ⊢
    exact ih h
  | case4 d w =>
    rw [List.cons_append, readString_quote, Prod.mk.injEq] at h
    have hnil := List.append_left_eq_self.mp h.2
    cases hnil
  | case5 c d w hb hq ih =>
    rw [List.cons_append, readString_cons hb hq] at h ⊢
    exact ih h

theorem readCStyleComment_length_lt {s r : Location} (h : readCStyleComment s = (true, r)) :
    r.length < s.length := by
  induction s with
  | nil => cases h
  | cons c s ih =>
    rw [readCStyleComment] at h
    split at h
    · rw [← (Prod.mk.inj h).2, List.length_tail, List.length_cons]
      omega
    · have := ih h
      rw [List.length_cons]
      omega

/-- A comment without end takes all that is left. -/
theorem readCStyleComment_false {s : Location} (h : (readCStyleComment s).1 = false) :
    (readCStyleComment s).2 = [] := by
  induction s with
  | nil => rfl
  | cons c s ih =>
    rw [readCStyleComment] at h ⊢
    split at h
    · cases h
    · rename_i hne
      rw [if_neg hne]
      exact ih h

/-- Nor what is behind a comment's `*/`. -/
theorem readCStyleComment_append {w u : Location} (u' : Location)
    (h : readCStyleComment (w ++ u) = (true, u)) : readCStyleComment (w ++ u') = (true, u') := by
  induction w with
  | nil =>
    have hlt := readCStyleComment_length_lt h
    exact absurd hlt (Nat.lt_irrefl _)
  | cons c w ih =>
    rw [List.cons_append, readCStyleComment] at h ⊢
    cases w with
    | nil =>
      -- the comment would have to end inside `u`
      exfalso
      rw [List.nil_append] at h
      split at h
      · rename_i hc
        have htail := (Prod.mk.inj h).2
        cases u with
        | nil => simp [peek] at hc
        | cons d u =>
          rw [List.tail_cons] at htail
          have := congrArg List.length htail
          simp at this
      · exact absurd (readCStyleComment_length_lt h) (Nat.lt_irrefl _)
    | cons d w =>
      have hpeek : ∀ v : Location, peek (d :: w ++ v) = d := fun _ => rfl
      rw [hpeek] at h ⊢
      split at h
      · rename_i hc
        rw [if_pos hc]
        have htail := (Prod.mk.inj h).2
        rw [List.cons_append, List.tail_cons, List.append_left_eq_self] at htail
        subst htail
        rfl
      · rename_i hc
        rw [if_neg hc]
        exact ih h

theorem readCppStyleComment_length_lt {s : Location} (h : s ≠ []) :
    (readCppStyleComment s).length < s.length := by
  cases s with
  | nil => exact absurd rfl h
  | cons c s =>
    rw [readCppStyleComment, List.length_cons]
    split
    · omega
    · have := (readCppStyleComment_suffix s).length_le
      omega

/-- A comment of one line that stops before the end of the document stops at its line
end, whatever follows. -/
theorem readCppStyleComment_append {w u : Location} (u' : Location) (hu : u ≠ [])
    (h : readCppStyleComment (w ++ u) = u) : readCppStyleComment (w ++ u') = u' := by
  induction w with
  | nil =>
    have hlt := readCppStyleComment_length_lt hu
    rw [← List.nil_append u, h] at hlt
    exact absurd hlt (Nat.lt_irrefl _)
  | cons c w ih =>
    rw [List.cons_append, readCppStyleComment] at h ⊢
    split at h
    · rename_i hc
      rw [if_pos hc]
      rw [List.append_left_eq_self] at h
      rw [h, List.nil_append]
    · rename_i hc
      rw [if_neg hc]
      exact ih h

/-- A comment of either kind is the same with something else behind the next byte. -/
theorem readComment_append {w u : Location} {ok : Bool} (u' : Location) (hu : u ≠ [])
    (h : readComment (w ++ u) = (ok, u)) : readComment (w ++ u') = (ok, u') := by
  cases w with
  | nil =>
    -- a comment takes one character at least
    have hlt : (readComment u).2.length < u.length := by
      have hpos := List.length_pos_iff.mpr hu
      have hle : (readComment u).2 <:+ u.tail := by
        unfold readComment
        by_cases hstar : (getNextChar u).1 = 42
        · rw [if_pos hstar]
          exact readCStyleComment_suffix _
        · rw [if_neg hstar]
          by_cases hslash : (getNextChar u).1 = 47
          · rw [if_pos hslash]
            exact readCppStyleComment_suffix _
          · rw [if_neg hslash]
            exact List.suffix_rfl
      have := hle.length_le
      rw [List.length_tail] at this
      omega
    rw [← List.nil_append u, h] at hlt
    exact absurd hlt (Nat.lt_irrefl _)
  | cons d w =>
    have hnext : ∀ v : Location, getNextChar (d :: w ++ v) = (d, w ++ v) := fun _ => rfl
    simp only [readComment, hnext] at h ⊢
    split
    · rename_i hstar
      rw [if_pos hstar] at h
      cases ok with
      | true => exact readCStyleComment_append u' h
      | false =>
        have hnil := readCStyleComment_false (congrArg Prod.fst h)
        rw [h] at hnil
        exact absurd hnil hu
    · rename_i hstar
      rw [if_neg hstar] at h
      split
      · rename_i hslash
        rw [if_pos hslash, Prod.mk.injEq] at h
        rw [readCppStyleComment_append u' hu h.2, h.1]
      · rename_i hslash
        rw [if_neg hslash, Prod.mk.injEq, List.append_left_eq_self] at h
        rw [h.1, h.2, List.nil_append]

/-- A number that stops before the end of the document stops at a byte that is in no
number, whatever follows. -/
theorem readNumber_append {w b v : Location} (v' : Location) (hb : b ≠ [])
    (h : readNumber (w ++ (b ++ v)) = b ++ v) : readNumber (w ++ (b ++ v')) = b ++ v' := by
  induction w with
  | nil =>
    cases b with
    | nil => exact absurd rfl hb
    | cons c b =>
      rw [List.nil_append, readNumber, List.cons_append, List.dropWhile_cons] at h ⊢
      split at h
      · have := (List.dropWhile_suffix isNumberChar (l := b ++ v)).length_le
        rw [h, List.length_cons] at this
        omega
      · rename_i hc
        rw [if_neg hc]
  | cons c w ih =>
    rw [readNumber, List.cons_append, List.dropWhile_cons] at h ⊢
    split at h
    · rename_i hc
      rw [if_pos hc]
      exact ih h
    · have := congrArg List.length h
      simp at this
      omega

/-- A word is not cut off by the end of the document while a closing bracket is
still to come. -/
theorem matchPattern_append {pattern w b v : Location} {ok : Bool} (v' : Location)
    (hb : Closes b) (hpattern : ¬ Closes pattern)
    (h : matchPattern pattern (w ++ (b ++ v)) = (ok, b ++ v)) :
    matchPattern pattern (w ++ (b ++ v')) = (ok, b ++ v') := by
  unfold matchPattern at h ⊢
  by_cases hp : pattern.isPrefixOf (w ++ (b ++ v)) = true
  · rw [if_pos hp, Prod.mk.injEq] at h
    obtain ⟨r, hr⟩ := List.isPrefixOf_iff_prefix.mp hp
    have hlen : pattern.length = w.length := by
      have h2 := congrArg List.length h.2
      have hr' := congrArg List.length hr
      simp only [List.length_drop, List.length_append] at h2 hr'
      omega
    obtain ⟨rfl, -⟩ := List.append_inj hr hlen
    rw [if_pos (List.isPrefixOf_iff_prefix.mpr (List.prefix_append _ _)), List.drop_left, h.1]
  · rw [if_neg hp, Prod.mk.injEq, List.append_left_eq_self] at h
    obtain ⟨hok, rfl⟩ := h
    rw [List.nil_append] at hp ⊢
    rw [if_neg, hok]
    rw [List.isPrefixOf_iff_prefix] at hp ⊢
    intro hprefix
    rcases List.prefix_or_prefix_of_prefix hprefix (List.prefix_append b v') with h | h
    · exact hp (h.trans (List.prefix_append b v))
    · apply hpattern
      unfold Closes at hb ⊢
      rcases hb with hb | hb
      · exact Or.inl (h.subset hb)
      · exact Or.inr (h.subset hb)

/-! ## Tokens -/

/-- A closing bracket is a token of its own. -/
theorem TokenAt.of_end {c : Byte} {s : Location} {r : TokenType × Location} (h : TokenAt c s r)
    (hr : r.1 = .tokenObjectEnd ∨ r.1 = .tokenArrayEnd) :
    Bracket c ∧ oneCharToken c = some r.1 := by
  have hchecked : ∀ (type_ : TokenType) (read : Bool × Location),
      (checked type_ read).1 = .tokenObjectEnd ∨ (checked type_ read).1 = .tokenArrayEnd →
      type_ = .tokenObjectEnd ∨ type_ = .tokenArrayEnd := by
    intro type_ read hr
    rcases checked_fst type_ read with ⟨h, -⟩ | h
    · rwa [h] at hr
    · rw [h] at hr
      rcases hr with hr | hr <;> cases hr
  cases h with
  | oneChar h =>
    refine ⟨?_, h⟩
    rcases oneCharToken_eq_some h with h | h | h | h | h | h | h <;> simp_all [Bracket]
  | string => rcases hchecked _ _ hr with h | h <;> cases h
  | comment => rcases hchecked _ _ hr with h | h <;> cases h
  | number => rcases hr with h | h <;> cases h
  | word h =>
    have htype := hchecked _ _ hr
    rcases wordToken_eq_some h with h | h | h <;> rw [h.1] at htype <;>
      rcases htype with h | h <;> cases h
  | other => rcases hr with h | h <;> cases h

/-- What a token takes does not depend on what is behind a closing bracket. -/
theorem readTokenAt_append {c : Byte} {w b v : Location} (v' : Location)
    (hb : Closes b ∨ (readTokenAt c (w ++ (b ++ v))).1 = .tokenObjectEnd ∨
      (readTokenAt c (w ++ (b ++ v))).1 = .tokenArrayEnd)
    (h : (readTokenAt c (w ++ (b ++ v))).2 = b ++ v) :
    readTokenAt c (w ++ (b ++ v')) = ((readTokenAt c (w ++ (b ++ v))).1, b ++ v') := by
  have hbracket := (readTokenAt_cases c (w ++ (b ++ v))).of_end
  unfold readTokenAt at h hb hbracket ⊢
  cases hone : oneCharToken c with
  | some type_ =>
    rw [hone] at h
    have hw : w = [] := List.append_left_eq_self.mp h
    rw [hw, List.nil_append]
  | none =>
    rw [hone] at h hb hbracket
    dsimp only at h hb hbracket ⊢
    have hcloses : Closes b := by
      rcases hb with hb | hb
      · exact hb
      · cases (hbracket hb).2
    have hne : ∀ z, b ++ z ≠ [] := fun z => by simp [hcloses.ne_nil]
    clear hb hbracket
    split
    · rename_i hq
      rw [if_pos hq] at h
      dsimp only [checked] at h
      have hread : readString (w ++ (b ++ v)) = (true, b ++ v) := by
        refine Prod.ext ?_ h
        by_contra hfalse
        rw [Bool.not_eq_true] at hfalse
        exact hne v (h.symm.trans (readString_false hfalse))
      rw [readString_append (b ++ v') hread, hread]
      rfl
    · rename_i hq
      rw [if_neg hq] at h
      split
      · rename_i hslash
        rw [if_pos hslash] at h
        dsimp only [checked] at h
        have hread : readComment (w ++ (b ++ v)) = ((readComment (w ++ (b ++ v))).1, b ++ v) :=
          Prod.ext rfl h
        rw [readComment_append (b ++ v') (hne v) hread]
        rfl
      · rename_i hslash
        rw [if_neg hslash] at h
        split
        · rename_i hnumber
          rw [if_pos hnumber] at h
          rw [readNumber_append v' hcloses.ne_nil h]
        · rename_i hnumber
          rw [if_neg hnumber] at h
          cases hword : wordToken c with
          | none =>
            rw [hword] at h
            have hw : w = [] := List.append_left_eq_self.mp h
            rw [hw, List.nil_append]
          | some word =>
            obtain ⟨type_, pattern⟩ := word
            rw [hword] at h
            dsimp only [checked] at h ⊢
            have hpattern : ¬ Closes pattern := by
              rcases wordToken_eq_some hword with ⟨-, rfl⟩ | ⟨-, rfl⟩ | ⟨-, rfl⟩ <;>
                simp [Closes, ascii]
            have hread : matchPattern pattern (w ++ (b ++ v)) =
                ((matchPattern pattern (w ++ (b ++ v))).1, b ++ v) := Prod.ext rfl h
            rw [matchPattern_append v' hcloses hpattern hread]

/-- The same token: its type and its text. -/
structure SameToken (t t' : Token) : Prop where
  type_ : t'.type_ = t.type_
  text : t'.text = t.text

/-- **A token.** The reader takes the same one when what follows is replaced, as long as
a closing bracket is still to come or is the token itself. -/
theorem readToken_append {a b v : Location} (v' : Location)
    (hb : Closes b ∨ (readToken (a ++ v)).type_ = .tokenObjectEnd ∨
      (readToken (a ++ v)).type_ = .tokenArrayEnd)
    (h : (readToken (a ++ v)).end_ = b ++ v) :
    SameToken (readToken (a ++ v)) (readToken (a ++ v')) ∧
      (readToken (a ++ v')).end_ = b ++ v' := by
  obtain ⟨p, hp⟩ := h ▸ readToken_suffix (a ++ v)
  have ha : a = p ++ b := by
    rw [← List.append_assoc] at hp
    exact (List.append_cancel_right hp).symm
  subst ha
  rw [List.append_assoc] at h hb ⊢
  rw [List.append_assoc]
  have hskip : ∀ z, skipSpaces (p ++ (b ++ z)) =
      if (p.dropWhile isSpace).isEmpty then skipSpaces (b ++ z)
      else p.dropWhile isSpace ++ (b ++ z) := fun z => List.dropWhile_append
  cases hw : p.dropWhile isSpace with
  | nil =>
    -- the token would lie in `b ++ v`, and take nothing from it
    exfalso
    have hstart := hskip v
    rw [hw, List.isEmpty_nil, if_pos rfl] at hstart
    have hend := (readToken_end_suffix (p ++ (b ++ v))).length_le
    rw [readToken_start, hstart, h, List.length_tail] at hend
    have hle := (skipSpaces_suffix (b ++ v)).length_le
    have hzero : (b ++ v).length = 0 := by omega
    have hnil := List.length_eq_zero_iff.mp hzero
    rw [List.append_eq_nil_iff] at hnil
    rcases hb with hb | hb
    · exact hb.ne_nil hnil.1
    · have hempty : skipSpaces (p ++ (b ++ v)) = [] := by
        rw [hstart, hnil.1, hnil.2]
        rfl
      have htype : (readToken (p ++ (b ++ v))).type_ = .tokenEndOfStream := by
        unfold readToken
        rw [hempty]
        rfl
      rw [htype] at hb
      rcases hb with hb | hb <;> cases hb
  | cons c w =>
    have hstart : ∀ z, skipSpaces (p ++ (b ++ z)) = c :: w ++ (b ++ z) := by
      intro z
      rw [hskip, hw]
      rfl
    have htoken : ∀ z, readToken (p ++ (b ++ z)) =
        { type_ := (readTokenAt c (w ++ (b ++ z))).1, start_ := c :: w ++ (b ++ z),
          end_ := (readTokenAt c (w ++ (b ++ z))).2 } := by
      intro z
      unfold readToken
      rw [hstart]
      rfl
    rw [htoken] at h hb
    dsimp only at h hb
    have hat := readTokenAt_append v' hb h
    rw [htoken, htoken, hat]
    refine ⟨⟨rfl, ?_⟩, rfl⟩
    have htext : ∀ z, (c :: w ++ (b ++ z)).take ((c :: w ++ (b ++ z)).length - (b ++ z).length) =
        c :: w := by
      intro z
      rw [List.length_append, Nat.add_sub_cancel, List.take_left]
    rw [Token.text, Token.text, h, htext, htext]

/-- The first character of a closing bracket is the bracket. -/
theorem bracket_of_readToken {s : Location}
    (h : (readToken s).type_ = .tokenObjectEnd ∨ (readToken s).type_ = .tokenArrayEnd) :
    ∃ p c, Bracket c ∧ s = p ++ c :: (readToken s).end_ := by
  have hat := readTokenAt_cases (getNextChar (skipSpaces s)).1 (getNextChar (skipSpaces s)).2
  obtain ⟨hc, hone⟩ := hat.of_end h
  obtain ⟨p, hp⟩ := skipSpaces_suffix s
  have hend : (readToken s).end_ = (skipSpaces s).tail := by
    change (readTokenAt (getNextChar (skipSpaces s)).1 (getNextChar (skipSpaces s)).2).2 = _
    unfold readTokenAt
    rw [hone]
    rfl
  refine ⟨p, peek (skipSpaces s), hc, ?_⟩
  rw [hend]
  conv_lhs => rw [← hp]
  cases hs : skipSpaces s with
  | nil =>
    have hpeek : Bracket (peek (skipSpaces s)) := hc
    rw [hs] at hpeek
    rcases hpeek with h | h <;> cases h
  | cons c s' => rfl

/-- So it does when comments stand in front of the token. -/
theorem skipCommentTokens_append {a b v : Location} (v' : Location)
    (hb : Closes b ∨ (skipCommentTokens (a ++ v)).type_ = .tokenObjectEnd ∨
      (skipCommentTokens (a ++ v)).type_ = .tokenArrayEnd)
    (h : (skipCommentTokens (a ++ v)).end_ = b ++ v) :
    SameToken (skipCommentTokens (a ++ v)) (skipCommentTokens (a ++ v')) ∧
      (skipCommentTokens (a ++ v')).end_ = b ++ v' ∧
      (readToken (a ++ v')).type_ = (readToken (a ++ v)).type_ := by
  induction hlen : a.length using Nat.strong_induction_on generalizing a with
  | _ n ih =>
    by_cases hc : (readToken (a ++ v)).type_ = .tokenComment
    · -- behind the comment there is more of `a`, and a closing bracket in it
      have hskip := skipCommentTokens_of_comment hc
      rw [hskip] at h hb ⊢
      obtain ⟨a', ha', hcloses⟩ : ∃ a', (readToken (a ++ v)).end_ = a' ++ v ∧ Closes a' := by
        obtain ⟨-, s', hs', heq⟩ := skipCommentTokens_spec (readToken (a ++ v)).end_
        obtain ⟨p, hp⟩ := hs'
        rcases hb with hb | hb
        · obtain ⟨q, hq⟩ := skipCommentTokens_suffix (readToken (a ++ v)).end_
          rw [h] at hq
          exact ⟨q ++ b, by rw [← hq, List.append_assoc], hb.append_left q⟩
        · rw [heq] at hb h
          obtain ⟨q, c, hcb, hs'⟩ := bracket_of_readToken hb
          rw [h] at hs'
          refine ⟨p ++ (q ++ c :: b), ?_,
            ((closes_cons_of_bracket hcb).append_left q).append_left p⟩
          rw [← hp, hs']
          simp only [List.append_assoc, List.cons_append]
      obtain ⟨hsame, hend⟩ := readToken_append v' (Or.inl hcloses) ha'
      rw [ha'] at h hb ⊢
      have hc' : (readToken (a ++ v')).type_ = .tokenComment := hsame.type_.trans hc
      rw [skipCommentTokens_of_comment hc', hend, hsame.type_]
      have hlonger : a'.length < n → _ := fun hlt => ih a'.length hlt hb h rfl
      refine (fun hlt => ⟨(hlonger hlt).1, (hlonger hlt).2.1, rfl⟩) ?_
      have hlt := readToken_comment_lt hc
      rw [ha', List.length_append, List.length_append] at hlt
      omega
    · rw [skipCommentTokens_of_ne hc] at h hb ⊢
      obtain ⟨hsame, hend⟩ := readToken_append v' hb h
      have hc' : (readToken (a ++ v')).type_ ≠ .tokenComment := fun h' =>
        hc (hsame.type_.symm.trans h')
      rw [skipCommentTokens_of_ne hc']
      exact ⟨hsame, hend, hsame.type_⟩

/-! ## Decoders -/

section Decoders

variable {token token' : Token} {stop stop' : Location}

/-- What a decoder makes of a text does not depend on where the text stands. -/
theorem decodeHexDigits_move {n unicode : Nat} {current : Bytes} {x : Nat × Bytes}
    (h : decodeHexDigits token stop n unicode current = .ok x) :
    decodeHexDigits token' stop' n unicode current = .ok x := by
  induction n generalizing unicode current with
  | zero => exact h
  | succ n ih =>
    rw [decodeHexDigits] at h ⊢
    cases hd : hexValue (peek current) with
    | none =>
      rw [hd] at h
      cases h
    | some digit =>
      rw [hd] at h
      exact ih h

/-- Four hex digits are read in the same way in any token, and anywhere in it. -/
theorem decodeUnicodeEscapeSequence_move {current : Bytes} {x : Nat × Bytes}
    (h : decodeUnicodeEscapeSequence token stop current = .ok x) :
    decodeUnicodeEscapeSequence token' stop' current = .ok x := by
  unfold decodeUnicodeEscapeSequence at h ⊢
  split at h
  · cases h
  · rename_i hlen
    rw [if_neg hlen]
    exact decodeHexDigits_move h

/-- So are two of them that make a surrogate pair. -/
theorem decodeUnicodeCodePoint_move {current : Bytes} {x : Nat × Bytes}
    (h : decodeUnicodeCodePoint token stop current = .ok x) :
    decodeUnicodeCodePoint token' stop' current = .ok x := by
  unfold decodeUnicodeCodePoint at h ⊢
  split at h
  · cases h
  · rename_i unicode rest hfirst
    rw [decodeUnicodeEscapeSequence_move hfirst]
    dsimp only
    split at h
    · rename_i hpair
      rw [if_pos hpair]
      split at h
      · cases h
      · rename_i hlen
        rw [if_neg hlen]
        split at h
        · rename_i hu
          rw [if_pos hu]
          split at h
          · cases h
          · rename_i surrogatePair rest' hsecond
            rw [decodeUnicodeEscapeSequence_move hsecond]
            exact h
        · cases h
    · rename_i hpair
      rw [if_neg hpair]
      exact h

/-- So is one character, whatever its escape. -/
theorem decodeChar_move {c : Byte} {current : Bytes} {x : Bytes × Bytes}
    (h : decodeChar token stop c current = .ok x) : decodeChar token' stop' c current = .ok x := by
  unfold decodeChar at h ⊢
  split at h
  · rename_i hc
    rw [if_pos hc]
    split at h
    · cases h
    · rename_i escape current
      split at h
      · exact h
      · split at h
        · rename_i hu
          rw [if_pos hu]
          split at h
          · cases h
          · rename_i unicode rest hcode
            rw [decodeUnicodeCodePoint_move hcode]
            exact h
        · cases h
  · rename_i hc
    rw [if_neg hc]
    exact h

/-- So is a string of them. -/
theorem decodeChars_move {n : Nat} {current decoded d : Bytes}
    (h : decodeChars token stop n current decoded = .ok d) :
    decodeChars token' stop' n current decoded = .ok d := by
  induction n generalizing current decoded with
  | zero => exact h
  | succ n ih =>
    cases current with
    | nil => exact h
    | cons c current =>
      rw [decodeChars] at h ⊢
      split at h
      · rename_i hc
        rw [if_pos hc]
        exact h
      · rename_i hc
        rw [if_neg hc]
        split at h
        · cases h
        · rename_i added rest hchar
          rw [decodeChar_move hchar]
          exact ih h

/-- A string is decoded from its text alone. -/
theorem SameToken.decodeString {t t' : Token} {d : Bytes} (hsame : SameToken t t')
    (h : Reader.decodeString t = .ok d) : Reader.decodeString t' = .ok d := by
  unfold Reader.decodeString at h ⊢
  dsimp only at h ⊢
  rw [hsame.text]
  exact decodeChars_move h

/-- So is what is left to `sscanf`. -/
theorem SameToken.decodeDouble {t t' : Token} {x : Value} (hsame : SameToken t t')
    (h : Reader.decodeDouble scanDouble t = .ok x) : Reader.decodeDouble scanDouble t' = .ok x := by
  unfold Reader.decodeDouble at h ⊢
  rw [hsame.text]
  split at h
  · cases h
  · exact h

/-- So is a number. -/
theorem SameToken.decodeNumber {t t' : Token} {x : Value} (hsame : SameToken t t')
    (h : Reader.decodeNumber scanDouble t = .ok x) : Reader.decodeNumber scanDouble t' = .ok x := by
  unfold Reader.decodeNumber at h ⊢
  dsimp only at h ⊢
  rw [hsame.text]
  split at h
  · rename_i hdouble
    rw [if_pos hdouble]
    exact hsame.decodeDouble h
  · rename_i hdouble
    rw [if_neg hdouble]
    split at h
    · cases h
    · exact hsame.decodeDouble h
    · exact h

end Decoders

/-! ## Derivations -/

/-- A number is no object and no array. -/
theorem not_bracketed_of_decodeNumber {t : Token} {x : Value}
    (h : decodeNumber scanDouble t = .ok x) : ¬ x.Bracketed := by
  have hdouble : ∀ x, decodeDouble scanDouble t = .ok x → ¬ x.Bracketed := by
    intro x h
    unfold decodeDouble at h
    split at h
    · cases h
    · cases h
      simp [Value.Bracketed]
  unfold decodeNumber at h
  split at h
  · exact hdouble x h
  · dsimp only at h
    split at h
    · cases h
    · exact hdouble x h
    · split at h
      · cases h
        simp [Value.Bracketed]
      · split at h <;> cases h <;> simp [Value.Bracketed]

/-- Where a bracket is still to come, one is still to come for all that is in front. -/
theorem closes_of_suffix {s m v : Location} (hm : Closes m) (h : m ++ v <:+ s) :
    ∃ a, s = a ++ v ∧ Closes a := by
  obtain ⟨p, hp⟩ := h
  exact ⟨p ++ m, by rw [← hp, List.append_assoc], hm.append_left p⟩

/-- Behind the comments a closing bracket is the bracket, too. -/
theorem bracket_of_skipCommentTokens {s : Location}
    (h : (skipCommentTokens s).type_ = .tokenObjectEnd ∨
      (skipCommentTokens s).type_ = .tokenArrayEnd) :
    ∃ p c, Bracket c ∧ s = p ++ c :: (skipCommentTokens s).end_ := by
  obtain ⟨-, s', ⟨p, hp⟩, heq⟩ := skipCommentTokens_spec s
  rw [heq] at h ⊢
  obtain ⟨q, c, hc, hs'⟩ := bracket_of_readToken h
  refine ⟨p ++ q, c, hc, ?_⟩
  rw [List.append_assoc, ← hs', hp]

/-- Where a bracket is the last byte that was read, one was still to come before. -/
theorem closes_of_bracket {s p b v rest : Location} {c : Byte} (hc : Bracket c)
    (hs : s = p ++ c :: rest) (hrest : rest = b ++ v) : ∃ a, s = a ++ v ∧ Closes a := by
  refine closes_of_suffix (closes_cons_of_bracket (b := b) hc) ?_
  rw [hs, hrest, List.cons_append]
  exact List.suffix_append p _

theorem closes_of_skipCommentTokens {s b v : Location}
    (h : (skipCommentTokens s).type_ = .tokenObjectEnd ∨
      (skipCommentTokens s).type_ = .tokenArrayEnd)
    (hend : (skipCommentTokens s).end_ = b ++ v) : ∃ a, s = a ++ v ∧ Closes a := by
  obtain ⟨p, c, hc, hs⟩ := bracket_of_skipCommentTokens h
  exact closes_of_bracket hc hs hend

/-- Where an array turns out to be empty. -/
theorem readToken_of_bracket {s : Location} (h : peek (skipSpaces s) = 93) :
    skipSpaces s = 93 :: (readToken (skipSpaces s)).end_ := by
  cases hs : skipSpaces s with
  | nil =>
    rw [hs] at h
    cases h
  | cons c t =>
    rw [hs] at h
    have hc : c = 93 := h
    subst hc
    rfl

/-- The spaces in front, and what stands behind them. -/
theorem skipSpaces_append {s m v : Location} (v' : Location) (h : skipSpaces s = m ++ v)
    (hm : m ≠ []) : ∃ p, s = p ++ m ++ v ∧ skipSpaces (p ++ m ++ v') = m ++ v' := by
  cases m with
  | nil => exact absurd rfl hm
  | cons c m =>
    refine ⟨s.takeWhile isSpace, ?_, ?_⟩
    · rw [List.append_assoc, ← h]
      exact List.takeWhile_append_dropWhile.symm
    · have hc : isSpace c = false := by
        have hhead := List.head?_dropWhile_not isSpace s
        have hs : s.dropWhile isSpace = c :: m ++ v := h
        rw [hs] at hhead
        simpa using hhead
      rw [List.append_assoc, skipSpaces, List.dropWhile_append_of_pos]
      · rw [List.cons_append, List.dropWhile_cons, if_neg (by simp [hc])]
      · intro b hb
        exact List.mem_takeWhile_imp hb

/-- In front of a suffix that ends with a bracket there is only more. -/
theorem bracket_of_suffix {s s' rest p : Location} {c : Byte} (hs' : s' = p ++ c :: rest)
    (h : s' <:+ s) : ∃ q, s = q ++ c :: rest := by
  obtain ⟨q, rfl⟩ := h
  exact ⟨q ++ p, by rw [hs', List.append_assoc]⟩

/-- Every phase but a value ends with its closing bracket. -/
theorem Accepts.ends_bracket {p : Phase} {s rest : Location} {x : Value}
    (h : Accepts scanDouble p s x rest) (hp : p ≠ .value) :
    ∃ q c, Bracket c ∧ s = q ++ c :: rest := by
  induction h with
  | null => exact absurd rfl hp
  | true => exact absurd rfl hp
  | false => exact absurd rfl hp
  | number => exact absurd rfl hp
  | string => exact absurd rfl hp
  | object => exact absurd rfl hp
  | array => exact absurd rfl hp
  | noMember h => exact bracket_of_skipCommentTokens (Or.inl h)
  | lastMember h hd hcolon hx hcomma hend =>
    obtain ⟨q, c, hc, hs'⟩ := bracket_of_skipCommentTokens (Or.inl hend)
    obtain ⟨q', hq'⟩ := bracket_of_suffix hs'
      (hx.suffix.trans ((readToken_suffix _).trans (skipCommentTokens_suffix _)))
    exact ⟨q', c, hc, hq'⟩
  | member h hd hcolon hx hcomma hend hy _ ihy =>
    obtain ⟨q, c, hc, hs'⟩ := ihy (by simp)
    obtain ⟨q', hq'⟩ := bracket_of_suffix hs' ((skipCommentTokens_suffix _).trans
      (hx.suffix.trans ((readToken_suffix _).trans (skipCommentTokens_suffix _))))
    exact ⟨q', c, hc, hq'⟩
  | noElement h =>
    obtain ⟨q', hq'⟩ := bracket_of_suffix (p := []) (readToken_of_bracket h) (skipSpaces_suffix _)
    exact ⟨q', 93, Or.inr rfl, hq'⟩
  | someElement h hx ih =>
    obtain ⟨q, c, hc, hs'⟩ := ih (by simp)
    obtain ⟨q', hq'⟩ := bracket_of_suffix hs' (skipSpaces_suffix _)
    exact ⟨q', c, hc, hq'⟩
  | lastElement hx hend =>
    obtain ⟨q, c, hc, hs'⟩ := bracket_of_skipCommentTokens (Or.inr hend)
    obtain ⟨q', hq'⟩ := bracket_of_suffix hs' hx.suffix
    exact ⟨q', c, hc, hq'⟩
  | element hx hcomma hy _ ihy =>
    obtain ⟨q, c, hc, hs'⟩ := ihy (by simp)
    obtain ⟨q', hq'⟩ := bracket_of_suffix hs' ((skipCommentTokens_suffix _).trans hx.suffix)
    exact ⟨q', c, hc, hq'⟩

/-- So inside an object or an array a closing bracket is always still to come, however
much of the rest is replaced. -/
theorem Accepts.closes {p : Phase} {s rest : Location} {x : Value}
    (h : Accepts scanDouble p s x rest) (hp : p ≠ .value) {b v : Location} (hrest : rest = b ++ v) :
    ∃ a, s = a ++ v ∧ Closes a := by
  obtain ⟨q, c, hc, hs⟩ := h.ends_bracket hp
  exact closes_of_bracket hc hs hrest

/-- What follows is not looked at, if it follows an object or an array, or if a
closing bracket is still to come. -/
theorem Accepts.append {p : Phase} {s rest : Location} {x : Value}
    (h : Accepts scanDouble p s x rest) {a b v : Location} (v' : Location) (hs : s = a ++ v)
    (hrest : rest = b ++ v) (hb : p = .value → Closes b ∨ x.Bracketed) :
    Accepts scanDouble p (a ++ v') x (b ++ v') := by
  induction h generalizing a b with
  | null h =>
    subst hs
    have hb' : Closes b := (hb rfl).resolve_right (by simp [Value.Bracketed])
    obtain ⟨hsame, hend, -⟩ := skipCommentTokens_append v' (Or.inl hb') hrest
    exact hend ▸ .null (hsame.type_.trans h)
  | true h =>
    subst hs
    have hb' : Closes b := (hb rfl).resolve_right (by simp [Value.Bracketed])
    obtain ⟨hsame, hend, -⟩ := skipCommentTokens_append v' (Or.inl hb') hrest
    exact hend ▸ .true (hsame.type_.trans h)
  | false h =>
    subst hs
    have hb' : Closes b := (hb rfl).resolve_right (by simp [Value.Bracketed])
    obtain ⟨hsame, hend, -⟩ := skipCommentTokens_append v' (Or.inl hb') hrest
    exact hend ▸ .false (hsame.type_.trans h)
  | number h hx =>
    subst hs
    have hb' : Closes b := (hb rfl).resolve_right (not_bracketed_of_decodeNumber hx)
    obtain ⟨hsame, hend, -⟩ := skipCommentTokens_append v' (Or.inl hb') hrest
    exact hend ▸ .number (hsame.type_.trans h) (hsame.decodeNumber hx)
  | string h hd =>
    subst hs
    have hb' : Closes b := (hb rfl).resolve_right (by simp [Value.Bracketed])
    obtain ⟨hsame, hend, -⟩ := skipCommentTokens_append v' (Or.inl hb') hrest
    exact hend ▸ .string (hsame.type_.trans h) (hsame.decodeString hd)
  | object h hx ih =>
    subst hs
    obtain ⟨m, hm, hcloses⟩ := hx.closes (by simp) hrest
    obtain ⟨hsame, hend, -⟩ := skipCommentTokens_append v' (Or.inl hcloses) hm
    have hinner := ih hm hrest (by simp)
    exact .object (hsame.type_.trans h) (hend ▸ hinner)
  | array h hx ih =>
    subst hs
    obtain ⟨m, hm, hcloses⟩ := hx.closes (by simp) hrest
    obtain ⟨hsame, hend, -⟩ := skipCommentTokens_append v' (Or.inl hcloses) hm
    have hinner := ih hm hrest (by simp)
    exact .array (hsame.type_.trans h) (hend ▸ hinner)
  | noMember h =>
    subst hs
    obtain ⟨hsame, hend, -⟩ := skipCommentTokens_append v' (Or.inr (Or.inl h)) hrest
    exact hend ▸ .noMember (hsame.type_.trans h)
  | @lastMember s s' name₀ name ms x h hd hcolon hx hcomma hend ih =>
    subst hs
    -- the bracket is behind the member, so behind its value, its colon and its name
    obtain ⟨m, rfl, hm⟩ := closes_of_skipCommentTokens (Or.inl hend) hrest
    obtain ⟨m₂, hm₂, hcloses₂⟩ := closes_of_suffix hm hx.suffix
    obtain ⟨m₁, hm₁, hcloses₁⟩ := closes_of_suffix hcloses₂ (hm₂ ▸ readToken_suffix _)
    obtain ⟨hname, hnameEnd, -⟩ := skipCommentTokens_append v' (Or.inl hcloses₁) hm₁
    rw [hm₁] at hm₂ hcolon
    obtain ⟨hsep, hsepEnd⟩ := readToken_append v' (Or.inl hcloses₂) hm₂
    obtain ⟨hlast, hlastEnd, hcommaType⟩ := skipCommentTokens_append v' (Or.inr (Or.inl hend)) hrest
    have hvalue := ih (hm₁ ▸ hm₂) rfl fun _ => Or.inl hm
    rw [← hlastEnd]
    refine .lastMember (hname.type_.trans h) (hname.decodeString hd) ?_ ?_ ?_
      (hlast.type_.trans hend)
    · rw [hnameEnd, hsep.type_, hcolon]
    · rw [hnameEnd, hsepEnd]
      exact hvalue
    · unfold EndsMember at hcomma ⊢
      rwa [hcommaType]
  | @member s s' rest name₀ name ms x y h hd hcolon hx hcomma hend hy ih ihy =>
    subst hs
    obtain ⟨mr, hmr, hclosesr⟩ := hy.closes (by simp) hrest
    obtain ⟨m, rfl, hm⟩ := closes_of_suffix hclosesr (hmr ▸ skipCommentTokens_suffix _)
    obtain ⟨m₂, hm₂, hcloses₂⟩ := closes_of_suffix hm hx.suffix
    obtain ⟨m₁, hm₁, hcloses₁⟩ := closes_of_suffix hcloses₂ (hm₂ ▸ readToken_suffix _)
    obtain ⟨hname, hnameEnd, -⟩ := skipCommentTokens_append v' (Or.inl hcloses₁) hm₁
    rw [hm₁] at hm₂ hcolon
    obtain ⟨hsep, hsepEnd⟩ := readToken_append v' (Or.inl hcloses₂) hm₂
    obtain ⟨hlast, hlastEnd, hcommaType⟩ := skipCommentTokens_append v' (Or.inl hclosesr) hmr
    have hvalue := ih (hm₁ ▸ hm₂) rfl fun _ => Or.inl hm
    have hmore := ihy hmr hrest (by simp)
    have hcomma' : EndsMember (m ++ v') := by
      unfold EndsMember at hcomma ⊢
      rwa [hcommaType]
    refine .member (x := x) (hname.type_.trans h) (hname.decodeString hd) ?_ ?_ hcomma' ?_ ?_
    · rw [hnameEnd, hsep.type_, hcolon]
    · rw [hnameEnd, hsepEnd]
      exact hvalue
    · rwa [hlast.type_]
    · rw [hlastEnd]
      exact hmore
  | @noElement s h =>
    subst hs
    have hbracket := readToken_of_bracket h
    rw [hrest, ← List.cons_append] at hbracket
    obtain ⟨p, hp, hskip⟩ := skipSpaces_append v' hbracket (by simp)
    rw [List.append_cancel_right hp]
    have hend : (readToken (skipSpaces (p ++ (93 :: b) ++ v'))).end_ = b ++ v' := by
      rw [hskip]
      rfl
    rw [← hend]
    refine .noElement ?_
    rw [hskip]
    rfl
  | @someElement s rest x h hx ih =>
    subst hs
    obtain ⟨m, hm, hcloses⟩ := hx.closes (by simp) hrest
    obtain ⟨p, hp, hskip⟩ := skipSpaces_append v' hm hcloses.ne_nil
    rw [List.append_cancel_right hp]
    refine .someElement ?_ ?_
    · rw [hskip]
      rw [hm] at h
      cases m with
      | nil => exact absurd rfl hcloses.ne_nil
      | cons c m => exact h
    · rw [hskip]
      exact ih hm hrest (by simp)
  | lastElement hx hend ih =>
    subst hs
    obtain ⟨m, rfl, hm⟩ := closes_of_skipCommentTokens (Or.inr hend) hrest
    obtain ⟨hlast, hlastEnd, -⟩ := skipCommentTokens_append v' (Or.inr (Or.inr hend)) hrest
    rw [← hlastEnd]
    exact .lastElement (ih rfl rfl fun _ => Or.inl hm) (hlast.type_.trans hend)
  | element hx hcomma hy ih ihy =>
    subst hs
    obtain ⟨mr, hmr, hclosesr⟩ := hy.closes (by simp) hrest
    obtain ⟨m, rfl, hm⟩ := closes_of_suffix hclosesr (hmr ▸ skipCommentTokens_suffix _)
    obtain ⟨hlast, hlastEnd, -⟩ := skipCommentTokens_append v' (Or.inl hclosesr) hmr
    refine .element (ih rfl rfl fun _ => Or.inl hm) (hlast.type_.trans hcomma) ?_
    rw [hlastEnd]
    exact ihy hmr hrest (by simp)

/-- And it comes to an object or an array. -/
theorem Accepts.bracketed {p : Phase} {s rest : Location} {x : Value}
    (h : Accepts scanDouble p s x rest) (hp : p ≠ .value) : x.Bracketed := by
  induction h with
  | null => exact absurd rfl hp
  | true => exact absurd rfl hp
  | false => exact absurd rfl hp
  | number => exact absurd rfl hp
  | string => exact absurd rfl hp
  | object => exact absurd rfl hp
  | array => exact absurd rfl hp
  | noMember => trivial
  | lastMember => trivial
  | member _ _ _ _ _ _ _ _ ihy => exact ihy (by simp)
  | noElement => trivial
  | someElement _ _ ih => exact ih (by simp)
  | lastElement => trivial
  | element _ _ _ _ ihy => exact ihy (by simp)

/-! ## Objects and arrays are a prefix code -/

/-- An object or an array stands at `s`, and `rest` follows it. -/
def Bracketed (scanDouble : Bytes → Option UInt64) (s : Location) (x : Value) (rest : Location) :
    Prop :=
  Accepts scanDouble .value s x rest ∧ x.Bracketed

/-- **An object or an array says itself where it ends.** -/
theorem bracketed_selfDelimiting : PrefixCode.SelfDelimiting (Bracketed scanDouble) where
  suffix := fun h => h.1.suffix
  unique := fun h h' => h.1.unique h'.1
  append := fun h r' =>
    ⟨h.1.append (b := []) r' rfl rfl fun _ => Or.inr h.2, h.2⟩

/-- An object or an array ends with its bracket. -/
theorem Bracketed.ends_bracket {s rest : Location} {x : Value} (h : Bracketed scanDouble s x rest) :
    ∃ a c, Bracket c ∧ s = a ++ c :: rest := by
  obtain ⟨h, hx⟩ := h
  cases h with
  | null => exact hx.elim
  | true => exact hx.elim
  | false => exact hx.elim
  | number _ hn => exact absurd hx (not_bracketed_of_decodeNumber hn)
  | string => exact hx.elim
  | object _ h =>
    obtain ⟨q, c, hc, hs⟩ := h.ends_bracket (by simp)
    obtain ⟨q', hq'⟩ := bracket_of_suffix hs (skipCommentTokens_suffix _)
    exact ⟨q', c, hc, hq'⟩
  | array _ h =>
    obtain ⟨q, c, hc, hs⟩ := h.ends_bracket (by simp)
    obtain ⟨q', hq'⟩ := bracket_of_suffix hs (skipCommentTokens_suffix _)
    exact ⟨q', c, hc, hq'⟩

end Reader

end Json

end PicoDB
