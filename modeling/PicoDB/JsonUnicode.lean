import PicoDB.JsonText

/-!
# PicoDB.JsonUnicode — strings in a document

A document can spell a character of a string as its UTF-8 bytes, with an escape
of its own, with the four digits of its code, or with those of a surrogate pair.
`parse_spelled` says that the reader comes to the UTF-8 bytes of the text in each
case, in any mixture; of a text with U+0000 in it only what stands before that is
kept.
-/

namespace PicoDB

namespace Json

namespace Reader

variable {scanDouble : Bytes → Option UInt64} {token : Token} {stop : Location}

/-! ## UTF-8 -/

/-- A number of few bits under a mark of others. -/
theorem or_and_eq {b : Nat} {mark : Nat} (a : Nat) (hmark : mark = 2 ^ b * a) {mask k : Nat}
    (hmask : mask = 2 ^ k - 1) (hk : k ≤ b) (n : Nat) :
    mark ||| (mask &&& n) = n % 2 ^ k + mark := by
  have hlt : n % 2 ^ k < 2 ^ b :=
    (Nat.mod_lt _ (Nat.two_pow_pos k)).trans_le (Nat.pow_le_pow_right (by norm_num) hk)
  rw [hmask, Nat.and_comm, Nat.and_two_pow_sub_one_eq_mod, hmark,
    ← Nat.two_pow_add_eq_or_of_lt hlt, Nat.add_comm]

theorem toNat_cases (c : Char) : c.toNat < 0xD800 ∨ 0xDFFF < c.toNat ∧ c.toNat ≤ 0x10FFFF := by
  rcases c.valid with h | ⟨hlo, hhi⟩
  · exact Or.inl h
  · exact Or.inr ⟨hlo, Nat.le_of_lt_succ hhi⟩

/-- The bytes of `codePointToUTF8` are those of UTF-8. -/
theorem codePointToUTF8_eq (c : Char) : codePointToUTF8 c.toNat = String.utf8EncodeChar c := by
  have hlead2 : ∀ n, 0xC0 ||| (0x1F &&& n) = n % 32 + 0xC0 :=
    or_and_eq 3 (b := 6) rfl (k := 5) rfl (by norm_num)
  have hlead3 : ∀ n, 0xE0 ||| (0xF &&& n) = n % 16 + 0xE0 :=
    or_and_eq 7 (b := 5) rfl (k := 4) rfl (by norm_num)
  have hlead4 : ∀ n, 0xF0 ||| (0x7 &&& n) = n % 8 + 0xF0 :=
    or_and_eq 15 (b := 4) rfl (k := 3) rfl (by norm_num)
  have hnext : ∀ n, 0x80 ||| (0x3F &&& n) = n % 64 + 0x80 :=
    or_and_eq 2 (b := 6) rfl (k := 6) rfl (by norm_num)
  have hmax : c.toNat ≤ 0x10FFFF := by
    rcases toNat_cases c with h | h <;> omega
  have hval : c.val.toNat = c.toNat := rfl
  unfold codePointToUTF8 String.utf8EncodeChar
  simp only [hlead2, hlead3, hlead4, hnext, Nat.shiftRight_eq_div_pow, hval]
  by_cases h1 : c.toNat ≤ 0x7F
  · rw [if_pos h1, if_pos h1]
  rw [if_neg h1, if_neg h1]
  by_cases h2 : c.toNat ≤ 0x7FF
  · rw [if_pos h2, if_pos h2]
  rw [if_neg h2, if_neg h2]
  by_cases h3 : c.toNat ≤ 0xFFFF
  · rw [if_pos h3, if_pos h3]
  rw [if_neg h3, if_neg h3, if_pos hmax]

/-- Only the characters of ASCII have bytes of ASCII. -/
theorem ne_of_mem_utf8EncodeChar {c : Char} {b : Byte} (hb : b ∈ String.utf8EncodeChar c)
    {d : Byte} (hd : d.toNat < 128) (hc : c.toNat ≠ d.toNat) : b ≠ d := by
  have hbyte : ∀ n, n < 256 → 128 ≤ n → UInt8.ofNat n ≠ d := by
    rintro n hn hlow rfl
    rw [UInt8.toNat_ofNat_of_lt' hn] at hd
    omega
  have hval : c.val.toNat = c.toNat := rfl
  unfold String.utf8EncodeChar at hb
  simp only [hval] at hb
  split at hb
  · rename_i h1
    rw [List.mem_singleton.mp hb]
    rintro rfl
    have hlt : c.toNat < 256 := by omega
    rw [UInt8.toNat_ofNat_of_lt' hlt] at hc
    exact hc rfl
  split at hb
  · simp only [List.mem_cons, List.not_mem_nil, or_false] at hb
    rcases hb with rfl | rfl <;> exact hbyte _ (by omega) (by omega)
  split at hb
  · simp only [List.mem_cons, List.not_mem_nil, or_false] at hb
    rcases hb with rfl | rfl | rfl <;> exact hbyte _ (by omega) (by omega)
  · simp only [List.mem_cons, List.not_mem_nil, or_false] at hb
    rcases hb with rfl | rfl | rfl | rfl <;> exact hbyte _ (by omega) (by omega)

/-! ## Four digits -/

/-- Four hexadecimal digits and their number. -/
inductive Hex4 : Bytes → Nat → Prop where
  | mk {a b c d : Byte} {x y z w : Nat} (ha : hexValue a = some x) (hb : hexValue b = some y)
      (hc : hexValue c = some z) (hd : hexValue d = some w) :
      Hex4 [a, b, c, d] (((x * 16 + y) * 16 + z) * 16 + w)

theorem Hex4.decode {ds : Bytes} {n : Nat} (h : Hex4 ds n) (s : Bytes) :
    decodeUnicodeEscapeSequence token stop (ds ++ s) = .ok (n, s) := by
  cases h with
  | mk ha hb hc hd =>
    rw [decodeUnicodeEscapeSequence, if_neg (by simp)]
    simp [decodeHexDigits, peek, ha, hb, hc, hd]

theorem hexValue_plain {b : Byte} {n : Nat} (h : hexValue b = some n) : b ≠ 92 ∧ b ≠ 34 := by
  constructor
  · rintro rfl
    rw [show hexValue 92 = none by decide] at h
    cases h
  · rintro rfl
    rw [show hexValue 34 = none by decide] at h
    cases h

/-- The scan goes over characters that are neither quotes nor backslashes. -/
theorem readString_plain {w : Bytes} (h : ∀ b ∈ w, b ≠ 92 ∧ b ≠ 34) (s : Location) :
    readString (w ++ s) = readString s := by
  induction w with
  | nil => rfl
  | cons b w ih =>
    obtain ⟨h92, h34⟩ := h b List.mem_cons_self
    rw [List.cons_append, readString_cons h92 h34, ih fun b hb => h b (List.mem_cons_of_mem _ hb)]

theorem Hex4.plain {ds : Bytes} {n : Nat} (h : Hex4 ds n) : ∀ b ∈ ds, b ≠ 92 ∧ b ≠ 34 := by
  cases h with
  | mk ha hb hc hd =>
    simp only [List.forall_mem_cons]
    exact ⟨hexValue_plain ha, hexValue_plain hb, hexValue_plain hc, hexValue_plain hd,
      List.forall_mem_nil _⟩

theorem Hex4.length {ds : Bytes} {n : Nat} (h : Hex4 ds n) : ds.length = 4 := by
  cases h
  rfl

/-! ## Characters -/

/-- How a document can spell a character of a string. -/
inductive Spells (c : Char) : Bytes → Prop where
  | plain (h34 : c.toNat ≠ 34) (h92 : c.toNat ≠ 92) : Spells c (String.utf8EncodeChar c)
  | simple {e b : Byte} (h : simpleEscape e = some b) (hc : c.toNat = b.toNat) : Spells c [92, e]
  | code {ds : Bytes} (h : Hex4 ds c.toNat) : Spells c (92 :: 117 :: ds)
  | pair {ds es : Bytes} {hi lo : Nat} (hds : Hex4 ds (0xD800 + hi)) (hes : Hex4 es (0xDC00 + lo))
      (hhi : hi < 0x400) (hlo : lo < 0x400) (hc : c.toNat = 0x10000 + hi * 0x400 + lo) :
      Spells c (92 :: 117 :: (ds ++ 92 :: 117 :: es))

theorem Spells.readString {c : Char} {w : Bytes} (h : Spells c w) (s : Location) :
    Reader.readString (w ++ s) = Reader.readString s := by
  cases h with
  | plain h34 h92 =>
    exact readString_plain (fun b hb => ⟨ne_of_mem_utf8EncodeChar hb (by decide) h92,
      ne_of_mem_utf8EncodeChar hb (by decide) h34⟩) s
  | simple h => exact readString_backslash _ s
  | code h =>
    rw [List.cons_append, List.cons_append, readString_backslash, readString_plain h.plain]
  | pair hds hes =>
    simp only [List.cons_append, List.append_assoc]
    rw [readString_backslash, readString_plain hds.plain, readString_backslash,
      readString_plain hes.plain]

/-- Bytes that stand for themselves. -/
theorem decodeChars_plain {w : Bytes} (h : ∀ b ∈ w, b ≠ 92 ∧ b ≠ 34) (n : Nat) (s decoded : Bytes) :
    decodeChars token stop (n + w.length) (w ++ s) decoded =
      decodeChars token stop n s (decoded ++ w) := by
  induction w generalizing decoded with
  | nil => rw [List.nil_append, List.append_nil, List.length_nil, Nat.add_zero]
  | cons b w ih =>
    obtain ⟨h92, h34⟩ := h b List.mem_cons_self
    rw [List.length_cons, ← Nat.add_assoc, List.cons_append, decodeChars, if_neg h34,
      decodeChar_plain h92]
    dsimp only
    rw [ih fun b hb => h b (List.mem_cons_of_mem _ hb), List.append_assoc, List.singleton_append]

theorem le_of_simpleEscape {e b : Byte} (h : simpleEscape e = some b) : b.toNat ≤ 0x7F := by
  unfold simpleEscape at h
  repeat' split at h
  all_goals cases h
  all_goals decide

/-- The decoder comes to the bytes of the character. -/
theorem Spells.decodeChars {c : Char} {w : Bytes} (h : Spells c w) :
    ∃ k, k ≤ w.length ∧ ∀ n s decoded,
      Reader.decodeChars token stop (n + k) (w ++ s) decoded =
        Reader.decodeChars token stop n s (decoded ++ String.utf8EncodeChar c) := by
  cases h with
  | plain h34 h92 =>
    exact ⟨_, le_refl _, decodeChars_plain fun b hb =>
      ⟨ne_of_mem_utf8EncodeChar hb (by decide) h92, ne_of_mem_utf8EncodeChar hb (by decide) h34⟩⟩
  | @simple e b h hc =>
    refine ⟨1, by simp, fun n s decoded => ?_⟩
    have hbyte : String.utf8EncodeChar c = [b] := by
      have hsmall : c.toNat ≤ 0x7F := hc ▸ le_of_simpleEscape h
      rw [← codePointToUTF8_eq, codePointToUTF8, if_pos hsmall, hc, UInt8.ofNat_toNat]
    rw [List.cons_append, List.singleton_append, Reader.decodeChars, if_neg (by decide),
      decodeChar_simple h, hbyte]
  | @code ds h =>
    refine ⟨1, by simp, fun n s decoded => ?_⟩
    have hcode : decodeUnicodeCodePoint token stop (ds ++ s) = .ok (c.toNat, s) := by
      have hnot : ¬ (0xD800 ≤ c.toNat ∧ c.toNat ≤ 0xDBFF) := by
        rcases toNat_cases c with h | h <;> omega
      rw [decodeUnicodeCodePoint, h.decode]
      exact if_neg hnot
    rw [List.cons_append, List.cons_append, Reader.decodeChars, if_neg (by decide),
      decodeChar_unicode hcode, codePointToUTF8_eq]
  | @pair ds es hi lo hds hes hhi hlo hc =>
    refine ⟨1, by simp, fun n s decoded => ?_⟩
    have hcode : decodeUnicodeCodePoint token stop (ds ++ (92 :: 117 :: (es ++ s))) =
        .ok (c.toNat, s) := by
      have hpair : 0x10000 + (((0xD800 + hi) &&& 0x3FF) <<< 10) + ((0xDC00 + lo) &&& 0x3FF) =
          c.toNat := by
        rw [show (0x3FF : Nat) = 2 ^ 10 - 1 from rfl, Nat.and_two_pow_sub_one_eq_mod,
          Nat.and_two_pow_sub_one_eq_mod, Nat.shiftLeft_eq]
        omega
      rw [decodeUnicodeCodePoint, hds.decode]
      dsimp only
      rw [if_pos (by omega), if_neg (by simp [hes.length]), if_pos ⟨rfl, rfl⟩]
      simp only [List.tail_cons]
      rw [hes.decode]
      dsimp only
      rw [hpair]
    simp only [List.cons_append, List.append_assoc]
    rw [Reader.decodeChars, if_neg (by decide), decodeChar_unicode hcode, codePointToUTF8_eq]

/-! ## Texts -/

/-- How a document can spell a text between quotes, character by character. -/
inductive SpellsText : List Char → Bytes → Prop where
  | nil : SpellsText [] []
  | cons {c : Char} {w : Bytes} {cs : List Char} {ws : Bytes} (h : Spells c w)
      (hs : SpellsText cs ws) : SpellsText (c :: cs) (w ++ ws)

theorem SpellsText.readString {cs : List Char} {w : Bytes} (h : SpellsText cs w) (r : Location) :
    Reader.readString (w ++ 34 :: r) = (true, r) := by
  induction h with
  | nil => exact readString_quote r
  | cons h _ ih => rw [List.append_assoc, h.readString, ih]

theorem SpellsText.decodeChars {cs : List Char} {w : Bytes} (h : SpellsText cs w) {n : Nat}
    (hn : w.length ≤ n) (decoded : Bytes) :
    Reader.decodeChars token stop n w decoded =
      .ok (decoded ++ cs.flatMap String.utf8EncodeChar) := by
  induction h generalizing n decoded with
  | nil =>
    rw [List.flatMap_nil, List.append_nil]
    cases n <;> rfl
  | @cons c w cs ws h _ ih =>
    obtain ⟨k, hk, hturn⟩ := @Spells.decodeChars token stop c w h
    rw [List.length_append] at hn
    obtain ⟨m, rfl⟩ := Nat.exists_eq_add_of_le' (hk.trans ((Nat.le_add_right _ _).trans hn))
    rw [hturn, ih (by omega), List.flatMap_cons, List.append_assoc]

/-- A text as a C string. -/
theorem cString_flatMap_utf8EncodeChar (cs : List Char) :
    cString (cs.flatMap String.utf8EncodeChar) =
      (cs.takeWhile (·.toNat ≠ 0)).flatMap String.utf8EncodeChar := by
  induction cs with
  | nil => rfl
  | cons c cs ih =>
    by_cases hc : c.toNat = 0
    · -- its only byte is the NUL
      have hbyte : String.utf8EncodeChar c = [0] := by
        rw [← codePointToUTF8_eq, hc]
        rfl
      rw [List.takeWhile_cons_of_neg (by simpa using hc), List.flatMap_cons, hbyte]
      rfl
    · have hzero : (0 : Byte) ∉ String.utf8EncodeChar c :=
        fun h0 => absurd rfl (ne_of_mem_utf8EncodeChar h0 (by decide) hc)
      rw [List.takeWhile_cons_of_pos (by simpa using hc), List.flatMap_cons, List.flatMap_cons,
        cString_append hzero, ih]

/-- **Strings.** However a document spells a text, in whatever mixture of characters
and escapes, it is read as the UTF-8 bytes of the text up to its first U+0000. -/
theorem parse_spelled {cs : List Char} {w : Bytes} (h : SpellsText cs w) (junk : Bytes) :
    (parse scanDouble (34 :: (w ++ 34 :: junk))).1 =
      some (.stringValue ((cs.takeWhile (·.toNat ≠ 0)).flatMap String.utf8EncodeChar)) := by
  obtain ⟨htype, hd, hend⟩ := readToken_quoted (v := cs.flatMap String.utf8EncodeChar)
    (h.readString junk) fun token stop => h.decodeChars (le_refl _) []
  have hskip : skipCommentTokens (34 :: (w ++ 34 :: junk)) = readToken (34 :: (w ++ 34 :: junk)) :=
    skipCommentTokens_of_ne (by rw [htype]; decide)
  rw [← hskip] at htype hd
  rw [← cString_flatMap_utf8EncodeChar]
  exact parse_eq_some_iff.mpr ⟨_, .string htype hd⟩

/-- A letter beyond ASCII, a line end, the letter again by its code, a character
beyond the first plane, and a letter behind U+0000, which is lost. -/
theorem parse_spelled_mixed :
    let cs := [Char.ofNat 0xE9, Char.ofNat 10, Char.ofNat 0xE9, Char.ofNat 0x1F600]
    (parse (fun _ => none) (34 :: ([0xC3, 0xA9] ++ (ascii "\\n" ++ (ascii "\\u00E9" ++
      (ascii "\\uD83D\\ude00" ++ (ascii "\\u0000" ++ (ascii "b" ++ []))))) ++ 34 :: []))).1 =
        some (.stringValue (cs.flatMap String.utf8EncodeChar)) := by
  have hletter : Spells (Char.ofNat 0xE9) [0xC3, 0xA9] := .plain (by decide) (by decide)
  have hline : Spells (Char.ofNat 10) (ascii "\\n") := .simple (e := 110) (b := 10) rfl rfl
  have hcode : Hex4 (ascii "00E9") (((0 * 16 + 0) * 16 + 14) * 16 + 9) :=
    .mk (by decide) (by decide) (by decide) (by decide)
  have hagain : Spells (Char.ofNat 0xE9) (ascii "\\u00E9") := .code hcode
  have hhigh : Hex4 (ascii "D83D") (((13 * 16 + 8) * 16 + 3) * 16 + 13) :=
    .mk (by decide) (by decide) (by decide) (by decide)
  have hlow : Hex4 (ascii "de00") (((13 * 16 + 14) * 16 + 0) * 16 + 0) :=
    .mk (by decide) (by decide) (by decide) (by decide)
  have hpair : Spells (Char.ofNat 0x1F600) (ascii "\\uD83D\\ude00") :=
    @Spells.pair _ _ _ 0x3D 0x200 hhigh hlow (by decide) (by decide) (by decide)
  have hzero : Hex4 (ascii "0000") (((0 * 16 + 0) * 16 + 0) * 16 + 0) :=
    .mk (by decide) (by decide) (by decide) (by decide)
  have hnul : Spells (Char.ofNat 0) (ascii "\\u0000") := .code hzero
  have hlost : Spells (Char.ofNat 98) (ascii "b") := .plain (by decide) (by decide)
  have hspelled := SpellsText.cons hletter
    (.cons hline (.cons hagain (.cons hpair (.cons hnul (.cons hlost .nil)))))
  exact parse_spelled hspelled []

end Reader

end Json

end PicoDB
