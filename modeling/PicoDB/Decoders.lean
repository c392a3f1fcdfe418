import Mathlib.Tactic.Tauto
import PicoDB.Framing

/-!
# PicoDB.Decoders — how far the two readers go, and where they part

Both results are about streams that give every read all it asks for. A size is
announced by a buffer, and nothing in the code ties this to the buffer being a
header: a body may announce one as well.

* `bounded_work_iff`: a top-level call stays within header and body exactly
  when the buffer after the header announces no size.
* `decoders_agree_iff`: the session and the driver read the same as long as no
  size is announced that they narrow differently (`Parting`).
-/

namespace PicoDB

/-- The buffer is taken for the announcement of `m` bytes. -/
def Announces (buffer : Bytes) (m : Int) : Prop :=
  processTheBufferJustRead (.ofString buffer) buffer.length = .ok (.readNext m)

/-! ## Header, then body -/

theorem length_filter_ne_add_count (l : Bytes) :
    (l.filter (· ≠ hash)).length + l.count hash = l.length := by
  induction l with
  | nil => rfl
  | cons b l ih =>
    by_cases hb : b = hash
    · rw [List.filter_cons_of_neg (by simpa using hb), hb, List.count_cons_self, List.length_cons]
      omega
    · rw [List.filter_cons_of_pos (by simpa using hb), List.count_cons_of_ne (by simpa using hb),
        List.length_cons, List.length_cons]
      omega

/-- Ten bytes with four `'#'` in a row among them leave six characters for a
number. -/
theorem length_filter_le_six {buffer : Bytes} (hlen : buffer.length = 10)
    (h : List.replicate 4 hash <:+: buffer.dropLast) :
    (buffer.filter (· ≠ hash)).length ≤ 6 := by
  have hcount : 4 ≤ buffer.count hash := by
    have hle := (h.sublist.trans (List.dropLast_sublist buffer)).count_le hash
    rwa [List.count_replicate_self] at hle
  have hsplit := length_filter_ne_add_count buffer
  omega

theorem bounds_of_announces {buffer : Bytes} {m : Int} (hlen : buffer.length = 10)
    (h : Announces buffer m) : -10 ^ 6 < m ∧ m < 10 ^ 6 := by
  rcases ReadSome.convertToSomething_of_verdict (r := ⟨10, false, buffer⟩) h with ⟨hm, hinfo⟩
  have hsix := length_filter_le_six hlen ((PicoRecord.isThisRecordASizeInfo_iff _).mp hinfo)
  have hcut : (cString (buffer.filter (· ≠ hash))).length ≤ (buffer.filter (· ≠ hash)).length :=
    (List.takeWhile_sublist _).length_le
  exact convertToSomething_bounds (k := 6) hm (by dsimp only; omega)

/-- The reads of one top-level call stay within bounds: a header and a body at
most, the body of a size that a header can state, and no call within that. -/
structure BoundedWork (depth : Nat) (call : List ReadStep × CallEnd Bytes) : Prop where
  reads : call.1.length ≤ 2
  body : ∀ step ∈ call.1.tail, 1 ≤ step.asked ∧ step.asked ≤ 999999
  nesting : 2 ≤ depth → call.2 ≠ .tooDeep

/-- The bytes after a header, as many as it announces, announce a size in
their turn. -/
def BodyAnnounces (stream : Bytes) : Prop :=
  10 ≤ stream.length ∧ ∃ m m', Announces (stream.take 10) m ∧ 0 < m ∧
    m.toNat ≤ (stream.drop 10).length ∧ Announces ((stream.drop 10).take m.toNat) m'

/-- The reader takes sizes of six digits as they are, and none that is not
positive. -/
structure Careful (sizeToRead : Int → Except Fault Nat) : Prop where
  takes : ∀ m : Int, 0 < m → m < 10 ^ 6 → sizeToRead m = .ok m.toNat
  refuses : ∀ m : Int, -10 ^ 6 < m → m ≤ 0 → ∃ f, sizeToRead m = .error f

theorem Session.careful : Careful Session.sizeToRead where
  takes m hpos hlt := by
    have h := toInt_of_mem (x := m) (by omega) (by omega)
    rw [Session.sizeToRead_of_pos hpos (by omega), h]
  refuses m _ hle := ⟨_, if_neg (by omega)⟩

theorem Driver.careful : Careful Driver.sizeToRead where
  takes m hpos hlt := by
    have h := toInt_of_mem (x := m) (by omega) (by omega)
    rw [Driver.sizeToRead_of_pos (by omega), h]
  refuses m hlo hle := by
    have h := toInt_of_mem (x := m) (by omega) (by omega)
    exact ⟨_, if_neg (by omega)⟩

section Bounded

variable {sizeToRead : Int → Except Fault Nat}

/-- The call inside a top-level call, for a size that ten bytes can announce. -/
theorem inner_call_bounded (hsize : Careful sizeToRead) {m : Int} (hlo : -10 ^ 6 < m)
    (hhi : m < 10 ^ 6) {s : Bytes}
    (hbody : ∀ m', 0 < m → m.toNat ≤ s.length → ¬ Announces (s.take m.toNat) m') (depth : Nat) :
    (readOneBuffer sizeToRead wholeReads depth m s).1.length ≤ 1 ∧
      (∀ step ∈ (readOneBuffer sizeToRead wholeReads depth m s).1,
        1 ≤ step.asked ∧ step.asked ≤ 999999) ∧
      (1 ≤ depth → (readOneBuffer sizeToRead wholeReads depth m s).2 ≠ .tooDeep) := by
  cases depth with
  | zero => exact ⟨by simp [readOneBuffer], by simp [readOneBuffer], by simp⟩
  | succ depth =>
    have htaken : ∀ n, sizeToRead m = .ok n → 0 < m ∧ n = m.toNat ∧ 1 ≤ n ∧ n ≤ 999999 := by
      intro n hn
      by_cases hpos : 0 < m
      · rw [hsize.takes m hpos hhi] at hn
        cases hn
        exact ⟨hpos, rfl, by omega, by omega⟩
      · rcases hsize.refuses m hlo (by omega) with ⟨f, hf⟩
        rw [hf] at hn
        cases hn
    cases callCases sizeToRead wholeReads m s with
    | refused hm =>
      rw [readOneBuffer_refused hm]
      exact ⟨by simp, by simp, by simp⟩
    | @waits n hm hread =>
      rw [readOneBuffer_waits hm hread]
      exact ⟨by simp, by simpa using (htaken n hm).2.2, by simp⟩
    | @fault n r s' f hm hread hv =>
      rw [readOneBuffer_fault hm hread hv]
      exact ⟨by simp, by simpa using (htaken n hm).2.2, by simp⟩
    | @message n r s' str hm hread hv =>
      rw [readOneBuffer_message hm hread hv]
      exact ⟨by simp, by simpa using (htaken n hm).2.2, by simp⟩
    | @readNext n r s' m' hm hread hv =>
      -- the body would have to announce a size
      rcases htaken n hm with ⟨hpos, rfl, -, -⟩
      rcases wholeReads_eq_some hread with ⟨rfl, -, hle⟩
      exact absurd hv (hbody m' hpos hle)

theorem boundedWork_iff (hsize : Careful sizeToRead) (stream : Bytes) :
    (∀ depth, BoundedWork depth (readOneBuffer sizeToRead wholeReads depth 10 stream)) ↔
      ¬ BodyAnnounces stream := by
  have hten : sizeToRead 10 = .ok 10 := hsize.takes 10 (by norm_num) (by norm_num)
  constructor
  · rintro h ⟨hlen, m, m', hm, hpos, hle, hm'⟩
    -- two calls are on the stack and a third is made
    have hbounds := bounds_of_announces (List.length_take_of_le hlen) hm
    have hdeep : (readOneBuffer sizeToRead wholeReads 2 10 stream).2 = .tooDeep := by
      rw [readOneBuffer_readNext hten (wholeReads_of_le hlen) hm,
        readOneBuffer_readNext (hsize.takes m hpos hbounds.2) (wholeReads_of_le hle) hm']
      rfl
    exact (h 2).nesting (le_refl 2) hdeep
  · intro h depth
    cases depth with
    | zero => exact ⟨by simp [readOneBuffer], by simp [readOneBuffer], by simp⟩
    | succ depth =>
      cases callCases sizeToRead wholeReads 10 stream with
      | refused hno =>
        rw [hten] at hno
        cases hno
      | waits hok hread =>
        rw [readOneBuffer_waits hok hread]
        exact ⟨by simp, by simp, by simp⟩
      | fault hok hread hv =>
        rw [readOneBuffer_fault hok hread hv]
        exact ⟨by simp, by simp, by simp⟩
      | message hok hread hv =>
        rw [readOneBuffer_message hok hread hv]
        exact ⟨by simp, by simp, by simp⟩
      | @readNext n r s' m hok hread hv =>
        -- a header: the body is read in the inner call
        rw [hten] at hok
        cases hok
        rcases wholeReads_eq_some hread with ⟨hr, hs', hlen⟩
        have hm : Announces (stream.take 10) m := by
          rw [hr] at hv
          exact hv
        have hbounds := bounds_of_announces (List.length_take_of_le hlen) hm
        have hbody : ∀ m', 0 < m → m.toNat ≤ s'.length →
            ¬ Announces (s'.take m.toNat) m' := by
          intro m' hpos hle hm'
          rw [hs'] at hle hm'
          exact h ⟨hlen, m, m', hm, hpos, hle, hm'⟩
        have hinner := inner_call_bounded hsize hbounds.1 hbounds.2 hbody depth
        rw [readOneBuffer_readNext hten hread hv]
        refine ⟨?_, hinner.2.1, fun hd => hinner.2.2 (by omega)⟩
        simpa using hinner.1

end Bounded

/-- **Bounded work per frame.** On either side, a top-level call stays within
one header and one body of 1 to 999,999 bytes exactly when the body announces
no size. -/
theorem bounded_work_iff (stream : Bytes) :
    ((∀ depth, BoundedWork depth (readOneBuffer Session.sizeToRead wholeReads depth 10 stream)) ↔
      ¬ BodyAnnounces stream) ∧
    ((∀ depth, BoundedWork depth (readOneBuffer Driver.sizeToRead wholeReads depth 10 stream)) ↔
      ¬ BodyAnnounces stream) :=
  ⟨boundedWork_iff Session.careful stream, boundedWork_iff Driver.careful stream⟩

/-- A header for five bytes and the body `####7`: a third read is made. -/
theorem body_of_hashes_is_a_header :
    let stream := ascii "####5" ++ [0, 0, 0, 0, 0] ++ ascii "####7"
    ((readOneBuffer Session.sizeToRead wholeReads 3 10 stream).1.map ReadStep.asked = [10, 5, 7] ∧
      ¬ BoundedWork 3 (readOneBuffer Session.sizeToRead wholeReads 3 10 stream)) ∧
    (readOneBuffer Driver.sizeToRead wholeReads 3 10 stream).1.map ReadStep.asked = [10, 5, 7] ∧
      ¬ BoundedWork 3 (readOneBuffer Driver.sizeToRead wholeReads 3 10 stream) :=
  ⟨⟨by decide, fun h => absurd h.reads (by decide)⟩,
    by decide, fun h => absurd h.reads (by decide)⟩

/-! ## Two readers on one stream -/

/-- The sizes announced by the buffers of some reads. -/
def announced (steps : List ReadStep) : List Int :=
  steps.filterMap fun step =>
    match step.got.map ReadSome.verdict with
    | some (.ok (.readNext m)) => some m
    | _ => none

/-- The sizes asked for by some reads. -/
def asked (steps : List ReadStep) : List Nat := steps.map ReadStep.asked

/-- A size that one side goes on from and the other does not: the session looks
at the `long`, the driver at the `int` it becomes. -/
def Parting (m : Int) : Prop := (m ≤ 0 ∧ 0 < toInt m) ∨ (0 < m ∧ toInt m = 0)

/-- The size of a read both sides would make: positive as a `long` and as an
`int`. -/
def commonSize (m : Int) : Except Fault Nat :=
  if 0 < m ∧ 0 < toInt m then .ok (toInt m).toNat else .error (.assertion .dataSizeToReadNext)

/-- One reader goes on wherever another does, in the same way. -/
def Extends (f g : Int → Except Fault Nat) : Prop := ∀ m n, f m = .ok n → g m = .ok n

theorem Session.extends_commonSize : Extends commonSize Session.sizeToRead := by
  intro m n h
  unfold commonSize at h
  split at h
  · rename_i hm
    cases h
    exact Session.sizeToRead_of_pos hm.1 (le_of_lt hm.2)
  · cases h

theorem Driver.extends_commonSize : Extends commonSize Driver.sizeToRead := by
  intro m n h
  unfold commonSize at h
  split at h
  · rename_i hm
    cases h
    exact Driver.sizeToRead_of_pos hm.2
  · cases h

/-- Away from the parting sizes no side goes on alone. -/
theorem refused_of_not_parting {m : Int} {f : Fault} (hp : ¬ Parting m)
    (h : commonSize m = .error f) :
    (∃ f, Session.sizeToRead m = .error f) ∧ ∃ f, Driver.sizeToRead m = .error f := by
  have hnot : ¬ (0 < m ∧ 0 < toInt m) := by
    intro hm
    rw [commonSize, if_pos hm] at h
    cases h
  unfold Parting at hp
  constructor
  · unfold Session.sizeToRead
    by_cases hpos : 0 < m
    · rw [if_pos hpos]
      exact ⟨_, if_pos (by omega)⟩
    · exact ⟨_, if_neg hpos⟩
  · exact ⟨_, if_neg (by omega)⟩

/-- At a parting size one side stops and the other reads. -/
theorem one_goes_on {m : Int} (hp : Parting m) :
    (∃ f n, Session.sizeToRead m = .error f ∧ Driver.sizeToRead m = .ok n) ∨
      ∃ f n, Driver.sizeToRead m = .error f ∧ Session.sizeToRead m = .ok n := by
  rcases hp with ⟨hle, hpos⟩ | ⟨hpos, hzero⟩
  · exact Or.inl ⟨_, _, if_neg (by omega), Driver.sizeToRead_of_pos hpos⟩
  · exact Or.inr ⟨_, _, if_neg (by omega), Session.sizeToRead_of_pos hpos (by omega)⟩

section Simulation

variable {σ : Type} {socket : Socket σ}

/-- Step lemma of the comparison, one call: where no announced size is parting,
`g` reads what the common reader reads. -/
theorem readOneBuffer_common {g : Int → Except Fault Nat} (hext : Extends commonSize g)
    (hrefuse : ∀ m f, ¬ Parting m → commonSize m = .error f → ∃ f, g m = .error f)
    (depth : Nat) (d : Int) (s : σ) (hd : ¬ Parting d)
    (hm : ∀ m ∈ announced (readOneBuffer commonSize socket depth d s).1, ¬ Parting m) :
    (readOneBuffer g socket depth d s).1 = (readOneBuffer commonSize socket depth d s).1 ∧
      (readOneBuffer g socket depth d s).2.handedOn =
        (readOneBuffer commonSize socket depth d s).2.handedOn := by
  induction depth generalizing d s with
  | zero => exact ⟨rfl, rfl⟩
  | succ depth ih =>
    cases callCases commonSize socket d s with
    | @refused f hsize =>
      rcases hrefuse d f hd hsize with ⟨f', hf'⟩
      rw [readOneBuffer_refused hsize, readOneBuffer_refused hf']
      exact ⟨rfl, rfl⟩
    | waits hsize hread =>
      rw [readOneBuffer_waits hsize hread, readOneBuffer_waits (hext d _ hsize) hread]
      exact ⟨rfl, rfl⟩
    | fault hsize hread hv =>
      rw [readOneBuffer_fault hsize hread hv, readOneBuffer_fault (hext d _ hsize) hread hv]
      exact ⟨rfl, rfl⟩
    | message hsize hread hv =>
      rw [readOneBuffer_message hsize hread hv, readOneBuffer_message (hext d _ hsize) hread hv]
      exact ⟨rfl, rfl⟩
    | @readNext n r s' m hsize hread hv =>
      rw [readOneBuffer_readNext hsize hread hv] at hm ⊢
      rw [readOneBuffer_readNext (hext d n hsize) hread hv]
      have hann : announced (⟨n, some r⟩ :: (readOneBuffer commonSize socket depth m s').1) =
          m :: announced (readOneBuffer commonSize socket depth m s').1 := by
        simp [announced, hv]
      rw [hann] at hm
      have h := ih m s' (hm m List.mem_cons_self)
        (fun m' hm' => hm m' (List.mem_cons_of_mem _ hm'))
      exact ⟨by rw [h.1], h.2⟩

/-- A call that comes back is repeated, one level deeper, by every reader that
goes on wherever the first one does. -/
theorem readOneBuffer_extends {f g : Int → Except Fault Nat} (hext : Extends f g) (depth : Nat)
    {d : Int} {s s' : σ} {steps : List ReadStep} {str : Bytes}
    (h : readOneBuffer f socket depth d s = (steps, .message str s')) :
    readOneBuffer g socket (depth + 1) d s = (steps, .message str s') := by
  induction depth generalizing d s steps with
  | zero => cases h
  | succ depth ih =>
    cases callCases f socket d s with
    | refused hsize =>
      rw [readOneBuffer_refused hsize] at h
      cases h
    | waits hsize hread =>
      rw [readOneBuffer_waits hsize hread] at h
      cases h
    | fault hsize hread hv =>
      rw [readOneBuffer_fault hsize hread hv] at h
      cases h
    | message hsize hread hv =>
      rw [readOneBuffer_message hsize hread hv] at h
      rw [readOneBuffer_message (hext d _ hsize) hread hv, h]
    | @readNext n r t m hsize hread hv =>
      rw [readOneBuffer_readNext hsize hread hv] at h
      have hcall : readOneBuffer f socket depth m t =
          ((readOneBuffer f socket depth m t).1, .message str s') := by
        rw [← (Prod.mk.inj h).2]
      rw [readOneBuffer_readNext (hext d n hsize) hread hv, ih hcall]
      rw [← (Prod.mk.inj h).1]

/-- One call stops where the other asks for more. -/
def StopsShort (a b : List ReadStep × CallEnd σ) : Prop :=
  (∃ f, a.2 = .stops f) ∧ (asked a.1).length < (asked b.1).length

variable (socket) in
/-- A size that is taken is asked for. -/
theorem asked_pos {g : Int → Except Fault Nat} {d : Int} {n : Nat} (h : g d = .ok n)
    (depth : Nat) (s : σ) : 0 < (asked (readOneBuffer g socket (depth + 1) d s).1).length := by
  cases callCases g socket d s with
  | refused hsize =>
    rw [h] at hsize
    cases hsize
  | waits hsize hread => simp [readOneBuffer_waits hsize hread, asked]
  | fault hsize hread hv => simp [readOneBuffer_fault hsize hread hv, asked]
  | message hsize hread hv => simp [readOneBuffer_message hsize hread hv, asked]
  | readNext hsize hread hv => simp [readOneBuffer_readNext hsize hread hv, asked]

/-- At a parting size one call stops at once. -/
theorem parts_at {d : Int} (hd : Parting d) (depth : Nat) (s : σ) :
    StopsShort (readOneBuffer Session.sizeToRead socket (depth + 1) d s)
        (readOneBuffer Driver.sizeToRead socket (depth + 1) d s) ∨
      StopsShort (readOneBuffer Driver.sizeToRead socket (depth + 1) d s)
        (readOneBuffer Session.sizeToRead socket (depth + 1) d s) := by
  rcases one_goes_on hd with ⟨f, n, hstop, hgo⟩ | ⟨f, n, hstop, hgo⟩
  · have hpos := asked_pos socket hgo depth s
    rw [readOneBuffer_refused hstop]
    exact Or.inl ⟨⟨f, rfl⟩, hpos⟩
  · have hpos := asked_pos socket hgo depth s
    rw [readOneBuffer_refused hstop]
    exact Or.inr ⟨⟨f, rfl⟩, hpos⟩

/-- What stops short in a call stops short in a run that starts with it. -/
theorem stopsShort_readCalls {f g : Int → Except Fault Nat} {depth : Nat} {s : σ}
    (h : StopsShort (readOneBuffer f socket depth 10 s) (readOneBuffer g socket depth 10 s))
    (deliver : Bytes → σ → Except Fault σ) (calls : Nat) :
    (asked (readCalls f socket deliver depth (calls + 1) s).steps).length <
      (asked (readCalls g socket deliver depth (calls + 1) s).steps).length := by
  rcases h with ⟨⟨e, he⟩, hlen⟩
  have hnone : (readOneBuffer f socket depth 10 s).2.handedOn = none := by rw [he]; rfl
  rw [(readCalls_handedOn_none _ _ hnone).1]
  refine lt_of_lt_of_le hlen ?_
  rcases readCalls_steps socket g deliver depth calls s with ⟨more, hmore⟩
  rw [hmore]
  simp [asked]

/-- Step lemma of the parting, one call: the first parting size ends the call
of one side and not that of the other. -/
theorem readOneBuffer_parts (depth : Nat) (d : Int) (s : σ)
    (h : ∃ m ∈ d :: announced (readOneBuffer commonSize socket depth d s).1, Parting m) :
    StopsShort (readOneBuffer Session.sizeToRead socket (depth + 1) d s)
        (readOneBuffer Driver.sizeToRead socket (depth + 1) d s) ∨
      StopsShort (readOneBuffer Driver.sizeToRead socket (depth + 1) d s)
        (readOneBuffer Session.sizeToRead socket (depth + 1) d s) := by
  induction depth generalizing d s with
  | zero => exact parts_at (by simpa [readOneBuffer, announced] using h) 0 s
  | succ depth ih =>
    rcases h with ⟨m, hm, hp⟩
    rcases List.mem_cons.mp hm with rfl | hm
    · exact parts_at hp (depth + 1) s
    cases callCases commonSize socket d s with
    | refused hsize => simp [readOneBuffer_refused hsize, announced] at hm
    | waits hsize hread => simp [readOneBuffer_waits hsize hread, announced] at hm
    | fault hsize hread hv => simp [readOneBuffer_fault hsize hread hv, announced, hv] at hm
    | message hsize hread hv => simp [readOneBuffer_message hsize hread hv, announced, hv] at hm
    | @readNext n r s' m₁ hsize hread hv =>
      -- both sides make this read, so they part in the inner call
      have hm' : m ∈ m₁ :: announced (readOneBuffer commonSize socket depth m₁ s').1 := by
        simpa [readOneBuffer_readNext hsize hread hv, announced, hv] using hm
      rw [readOneBuffer_readNext (Session.extends_commonSize d n hsize) hread hv,
        readOneBuffer_readNext (Driver.extends_commonSize d n hsize) hread hv]
      rcases ih m₁ s' ⟨m, hm', hp⟩ with ⟨hstop, hlen⟩ | ⟨hstop, hlen⟩
      · exact Or.inl ⟨hstop, by simpa [asked] using hlen⟩
      · exact Or.inr ⟨hstop, by simpa [asked] using hlen⟩

/-! ## Many calls -/

theorem not_parting_ten : ¬ Parting 10 := by
  have h : toInt 10 = 10 := toInt_of_mem (by norm_num) (by norm_num)
  unfold Parting
  omega

theorem announced_append (a b : List ReadStep) : announced (a ++ b) = announced a ++ announced b :=
  List.filterMap_append

/-- Run lemma of the comparison. -/
theorem readCalls_common {g : Int → Except Fault Nat} (hext : Extends commonSize g)
    (hrefuse : ∀ m f, ¬ Parting m → commonSize m = .error f → ∃ f, g m = .error f)
    (deliver : Bytes → σ → Except Fault σ) (depth calls : Nat) (s : σ)
    (hm : ∀ m ∈ announced (readCalls commonSize socket deliver depth calls s).steps, ¬ Parting m) :
    (readCalls g socket deliver depth calls s).steps =
        (readCalls commonSize socket deliver depth calls s).steps ∧
      (readCalls g socket deliver depth calls s).handed =
        (readCalls commonSize socket deliver depth calls s).handed := by
  induction calls generalizing s with
  | zero => exact ⟨rfl, rfl⟩
  | succ calls ih =>
    cases hend : (readOneBuffer commonSize socket depth 10 s).2.handedOn with
    | none =>
      have hc := readCalls_handedOn_none deliver calls hend
      rw [hc.1] at hm
      have h := readOneBuffer_common hext hrefuse depth 10 s not_parting_ten hm
      have hg := readCalls_handedOn_none deliver calls (h.2.trans hend)
      exact ⟨by rw [hc.1, hg.1, h.1], by rw [hc.2, hg.2]⟩
    | some p =>
      rcases p with ⟨str, s'⟩
      have hcall := call_of_handedOn hend
      have hc := readCalls_message deliver calls hcall
      rw [hc] at hm ⊢
      cases hd : deliver str s' with
      | error f =>
        simp only [hd] at hm
        have h := readOneBuffer_common hext hrefuse depth 10 s not_parting_ten hm
        rw [readCalls_message _ _ (call_of_handedOn (h.2.trans hend)), hd]
        exact ⟨h.1, rfl⟩
      | ok s'' =>
        simp only [hd, announced_append, List.mem_append] at hm
        have h := readOneBuffer_common hext hrefuse depth 10 s not_parting_ten
          fun m h => hm m (Or.inl h)
        have hnext := ih s'' fun m h => hm m (Or.inr h)
        rw [readCalls_message _ _ (call_of_handedOn (h.2.trans hend)), hd]
        exact ⟨by simp only [h.1, hnext.1], by simp only [hnext.2]⟩

/-- Run lemma of the parting. -/
theorem readCalls_parts (deliver : Bytes → σ → Except Fault σ) (depth calls : Nat) (s : σ)
    (h : ∃ m ∈ announced (readCalls commonSize socket deliver depth calls s).steps, Parting m) :
    asked (readCalls Session.sizeToRead socket deliver (depth + 1) calls s).steps ≠
      asked (readCalls Driver.sizeToRead socket deliver (depth + 1) calls s).steps := by
  induction calls generalizing s with
  | zero => simp [readCalls, announced] at h
  | succ calls ih =>
    by_cases hin : ∃ m ∈ announced (readOneBuffer commonSize socket depth 10 s).1, Parting m
    · -- the parting is within the first call
      rcases hin with ⟨m, hm, hp⟩
      rcases readOneBuffer_parts depth 10 s ⟨m, List.mem_cons_of_mem _ hm, hp⟩ with hs | hs
      · exact fun heq =>
          absurd (congrArg List.length heq) (stopsShort_readCalls hs deliver calls).ne
      · exact fun heq =>
          absurd (congrArg List.length heq) (stopsShort_readCalls hs deliver calls).ne'
    · -- the first call is the same on both sides
      rcases h with ⟨m, hm, hp⟩
      cases hend : (readOneBuffer commonSize socket depth 10 s).2.handedOn with
      | none =>
        rw [(readCalls_handedOn_none _ _ hend).1] at hm
        exact absurd ⟨m, hm, hp⟩ hin
      | some p =>
        rcases p with ⟨str, s'⟩
        have hcall := call_of_handedOn hend
        rw [readCalls_message _ _ hcall] at hm
        rw [readCalls_message _ _ (readOneBuffer_extends Session.extends_commonSize depth hcall),
          readCalls_message _ _ (readOneBuffer_extends Driver.extends_commonSize depth hcall)]
        cases hd : deliver str s' with
        | error f =>
          simp only [hd] at hm
          exact absurd ⟨m, hm, hp⟩ hin
        | ok s'' =>
          simp only [hd, announced_append, List.mem_append] at hm
          rcases hm with hm | hm
          · exact absurd ⟨m, hm, hp⟩ hin
          · intro heq
            simp only [asked, List.map_append] at heq
            exact ih s'' ⟨m, hm, hp⟩ (List.append_cancel_left heq)

end Simulation

/-- **The two decoders agree.** On a stream that gives every read all it asks
for, the session's reader and the driver's ask for the same sizes and hand over
the same bodies exactly when no size is announced at which they part. -/
theorem decoders_agree_iff (deliver : Bytes → Bytes → Except Fault Bytes) (stream : Bytes) :
    (∀ depth calls,
      asked (readCalls Session.sizeToRead wholeReads deliver depth calls stream).steps =
          asked (readCalls Driver.sizeToRead wholeReads deliver depth calls stream).steps ∧
        (readCalls Session.sizeToRead wholeReads deliver depth calls stream).handed =
          (readCalls Driver.sizeToRead wholeReads deliver depth calls stream).handed) ↔
      ∀ depth calls,
        ∀ m ∈ announced (readCalls commonSize wholeReads deliver depth calls stream).steps,
          ¬ Parting m := by
  constructor
  · intro h depth calls m hm hp
    exact readCalls_parts deliver depth calls stream ⟨m, hm, hp⟩ (h (depth + 1) calls).1
  · intro h depth calls
    have hs := readCalls_common Session.extends_commonSize
      (fun m f hp hf => (refused_of_not_parting hp hf).1) deliver depth calls stream
      (h depth calls)
    have hd := readCalls_common Driver.extends_commonSize
      (fun m f hp hf => (refused_of_not_parting hp hf).2) deliver depth calls stream
      (h depth calls)
    exact ⟨by rw [hs.1, hd.1], by rw [hs.2, hd.2]⟩

/-- A header for fifteen bytes and the body `####-4294967291`: the session stops
at the negative size, the driver narrows it to 5 and reads on. -/
theorem negative_size_parts :
    let stream := ascii "####15" ++ [0, 0, 0, 0] ++ ascii "####-4294967291"
    asked (readCalls Session.sizeToRead wholeReads (fun _ s => .ok s) 3 1 stream).steps = [10, 15] ∧
      asked (readCalls Driver.sizeToRead wholeReads (fun _ s => .ok s) 3 1 stream).steps =
        [10, 15, 5] := by
  decide

end PicoDB
