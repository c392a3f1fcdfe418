import PicoDB.Decoders

/-!
# PicoDB.Headers — what is taken for a header

The writer puts four `'#'` in front of the digits of a size, and a NUL behind
them where there is room for one (`HeaderOf`). The reader looks for the four
`'#'` anywhere, leaves out every `'#'` wherever it stands, and casts what is
then in front of the first NUL (`AcceptedAs`).

* `headerOf_iff`: the headers of this form are those the writer makes.
* `header_grammar`: what the reader accepts, they among it.
-/

namespace PicoDB

/-! ## Two grammars -/

/-- What may stand behind the text of a number: nothing, or a NUL and any bytes. -/
def Ends (rest : Bytes) : Prop := rest = [] ∨ ∃ junk, rest = 0 :: junk

/-- The buffer is a header for size `n`: four `'#'`, the digits of a positive
`n`, and the end or a NUL. -/
structure HeaderOf (n : Nat) (buffer : Bytes) : Prop where
  pos : 0 < n
  text : ∃ rest, buffer = List.replicate 4 hash ++ convertToString n ++ rest ∧ Ends rest

/-- The buffer is accepted as announcing `m`: there are four `'#'` in a row in
front of its last byte, and without any `'#'` it starts with a text that spells
`m`, and the end or a NUL. -/
structure AcceptedAs (m : Int) (buffer : Bytes) : Prop where
  marker : List.replicate 4 hash <:+: buffer.dropLast
  number : ∃ text rest, buffer.filter (· ≠ hash) = text ++ rest ∧ Spells text m ∧ Ends rest

/-! ## Texts of numbers -/

theorem Spells.zero_notMem {text : Bytes} {m : Int} (h : Spells text m) : (0 : Byte) ∉ text := by
  intro h0
  cases h with
  | plain k n => exact absurd (isDigit_of_mem_zeros h0) (by decide)
  | plus k n =>
    rcases List.mem_cons.mp h0 with h0 | h0
    · cases h0
    · exact absurd (isDigit_of_mem_zeros h0) (by decide)
  | minus k n =>
    rcases List.mem_cons.mp h0 with h0 | h0
    · cases h0
    · exact absurd (isDigit_of_mem_zeros h0) (by decide)

theorem cString_of_ends {text rest : Bytes} (h0 : (0 : Byte) ∉ text) (h : Ends rest) :
    cString (text ++ rest) = text := by
  rcases h with rfl | ⟨junk, rfl⟩
  · rw [List.append_nil, cString_of_zero_notMem h0]
  · exact cString_append_zero h0 junk

/-- A C string and what is behind it. -/
theorem exists_ends (s : Bytes) : ∃ rest, s = cString s ++ rest ∧ Ends rest := by
  induction s with
  | nil => exact ⟨[], rfl, Or.inl rfl⟩
  | cons b s ih =>
    by_cases hb : b = 0
    · subst hb
      exact ⟨0 :: s, rfl, Or.inr ⟨s, rfl⟩⟩
    · obtain ⟨rest, hs, hends⟩ := ih
      have hcons : cString (b :: s) = b :: cString s := by simp [cString, hb]
      exact ⟨rest, by rw [hcons, List.cons_append, ← hs], hends⟩

/-! ## The headers of the writer -/

/-- A header is ten bytes, so the size has six digits at most. -/
theorem HeaderOf.lt {n : Nat} {buffer : Bytes} (h : HeaderOf n buffer) (hlen : buffer.length = 10) :
    n < 10 ^ 6 := by
  obtain ⟨rest, rfl, -⟩ := h.text
  simp only [List.length_append, List.length_replicate] at hlen
  exact Decimal.read_lt_pow (Decimal.read_print n) (by rw [convertToString] at hlen; omega)

/-- **Headers.** The ten-byte headers for `n` are those the writer makes of a
size of six digits at most. -/
theorem headerOf_iff {n : Nat} {buffer : Bytes} (hlen : buffer.length = 10) :
    HeaderOf n buffer ↔
      0 < n ∧ n < 10 ^ 6 ∧ ∃ pad, buffer = header (convertToString n) pad := by
  constructor
  · intro h
    refine ⟨h.pos, h.lt hlen, ?_⟩
    obtain ⟨rest, rfl, hends⟩ := h.text
    have htext : getProperMessageAboutSize (convertToString n) [] =
        List.replicate 4 hash ++ convertToString n := rfl
    rcases hends with rfl | ⟨junk, rfl⟩
    · -- no room for a NUL
      refine ⟨fun _ => 0, ?_⟩
      rw [List.append_nil] at hlen ⊢
      rw [header, htext, ← hlen, fromCStr_of_le _ (le_refl _), List.take_length]
    · refine ⟨fun i => junk.getD i 0, ?_⟩
      rw [List.length_append] at hlen
      rw [header, htext, ← hlen, List.length_cons, fromCStr_getD]
  · rintro ⟨hpos, hlt, pad, rfl⟩
    refine ⟨hpos, ?_⟩
    obtain ⟨junk, hjunk, hends⟩ := header_eq (convertToString n) pad
    have hsix : (convertToString n).length ≤ 6 := Decimal.length_print_le (by norm_num) hlt
    rw [List.take_of_length_le hsix, ← List.append_assoc] at hjunk
    exact ⟨junk, hjunk, hends⟩

/-! ## What the reader accepts -/

/-- A buffer announces a size exactly when it is recognised and a number is cast. -/
theorem announces_iff {buffer : Bytes} {m : Int} :
    Announces buffer m ↔
      (PicoRecord.ofString buffer).isThisRecordASizeInfo = true ∧
        convertToSomething (cString (buffer.filter (· ≠ hash))) = .ok m := by
  constructor
  · intro h
    obtain ⟨hm, hinfo⟩ :=
      ReadSome.convertToSomething_of_verdict (r := ⟨buffer.length, false, buffer⟩) h
    exact ⟨hinfo, hm⟩
  · intro h
    have hv := ReadSome.verdict_sizeInfo (r := ⟨buffer.length, false, buffer⟩) h.1
    rw [h.2] at hv
    exact hv

/-- The reader accepts what the grammar says. -/
theorem announces_iff_acceptedAs {buffer : Bytes} (hlen : buffer.length = 10) {m : Int} :
    Announces buffer m ↔ AcceptedAs m buffer := by
  rw [announces_iff, PicoRecord.isThisRecordASizeInfo_iff, PicoRecord.ofString_data,
    convertToSomething_eq_ok_iff]
  constructor
  · rintro ⟨hmarker, hspells, -⟩
    obtain ⟨rest, hrest, hends⟩ := exists_ends (buffer.filter (· ≠ hash))
    exact ⟨hmarker, _, rest, hrest, hspells, hends⟩
  · rintro ⟨hmarker, text, rest, htext, hspells, hends⟩
    have hshort : text.length ≤ 6 := by
      have hsix := length_filter_le_six hlen hmarker
      rw [htext, List.length_append] at hsix
      omega
    rw [htext, cString_of_ends hspells.zero_notMem hends]
    exact ⟨hmarker, hspells, hspells.bounds hshort⟩

/-- Every header is accepted as what it announces. -/
theorem HeaderOf.acceptedAs {n : Nat} {buffer : Bytes} (h : HeaderOf n buffer)
    (hlen : buffer.length = 10) : AcceptedAs n buffer := by
  rw [← announces_iff_acceptedAs hlen]
  obtain ⟨-, hlt, pad, rfl⟩ := (headerOf_iff hlen).mp h
  exact decode_header_of_lt (r := ⟨_, false, header (convertToString n) pad⟩) hlt pad rfl

/-- **Header grammar.** A ten-byte buffer is treated as a header that announces
`m` exactly when it has the marker in it, and its bytes but for the `'#'` spell
`m`, up to the first NUL. The headers of the writer are among these. -/
theorem header_grammar {buffer : Bytes} (hlen : buffer.length = 10) (t : Nat) :
    (∀ m, processTheBufferJustRead (.ofString buffer) t = .ok (.readNext m) ↔
        AcceptedAs m buffer) ∧
      ∀ n, HeaderOf n buffer → AcceptedAs n buffer :=
  ⟨fun _ => announces_iff_acceptedAs hlen, fun _ h => h.acceptedAs hlen⟩

theorem header_grammar_twelve :
    let buffer := ascii "####12" ++ [0, 0, 0, 0]
    AcceptedAs 12 buffer ∧
      (processTheBufferJustRead (.ofString buffer) 10 = .ok (.readNext 12) ↔
        AcceptedAs 12 buffer) := by
  intro buffer
  have hlen : buffer.length = 10 := by decide
  have hgrammar := header_grammar hlen 10
  refine ⟨?_, hgrammar.1 12⟩
  exact hgrammar.2 12 ⟨by decide, [0, 0, 0, 0], by decide, Or.inr ⟨[0, 0, 0], rfl⟩⟩

/-- The marker behind the first digits, a sign, leading zeros: none of these
comes from the writer, and all are accepted. -/
theorem other_headers_accepted :
    ¬ (∀ buffer : Bytes, buffer.length = 10 → ∀ (t : Nat) (m : Int),
        processTheBufferJustRead (.ofString buffer) t = .ok (.readNext m) ↔
          ∃ n : Nat, m = n ∧ HeaderOf n buffer) ∧
      processTheBufferJustRead (.ofString (ascii "12####34" ++ [0, 0])) 10 =
        .ok (.readNext 1234) ∧
      processTheBufferJustRead (.ofString (ascii "####-5" ++ [0, 0, 0, 0])) 10 =
        .ok (.readNext (-5)) ∧
      processTheBufferJustRead (.ofString (ascii "####007" ++ [0, 0, 0])) 10 =
        .ok (.readNext 7) := by
  have hmiddle : processTheBufferJustRead (.ofString (ascii "12####34" ++ [0, 0])) 10 =
      .ok (.readNext 1234) := by decide
  refine ⟨fun h => ?_, hmiddle, by decide, by decide⟩
  -- a header starts with the marker
  obtain ⟨n, -, hheader⟩ := (h _ (by decide) 10 1234).mp hmiddle
  obtain ⟨rest, hrest, -⟩ := hheader.text
  have hhead : some (49 : Byte) = some hash := congrArg List.head? hrest
  exact absurd hhead (by decide)

end PicoDB
