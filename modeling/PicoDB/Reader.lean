import PicoDB.Message

/-!
# PicoDB.Reader — `readOneBuffer` and `processTheBufferJustRead`

Both sides of a connection read the same way: ask `read_some` for a number of
bytes, look at the buffer, and either take it for a size and read that many
bytes next, or take it for a message and hand it to `pico_message`. They differ
in how the announced size becomes the size of a read (`Session.sizeToRead`,
`Driver.sizeToRead`), which is the parameter `sizeToRead` here.

`processTheBufferJustRead` calls `readOneBuffer` back; the recursion is cut at
a `depth`, and a call that would nest deeper ends as `tooDeep`. The socket is a
parameter too: `none` is a `read_some` that does not come back.
-/

namespace PicoDB

/-! ## One buffer -/

/-- What `processTheBufferJustRead` takes a buffer for. -/
inductive Verdict where
  | readNext (nextDataSize : Int)
  | message (str : Bytes)
deriving DecidableEq, Repr

/-- `processTheBufferJustRead` up to the call it ends in. The count `t` that
`read_some` returned is handed in and not looked at. -/
def processTheBufferJustRead (currentBuffer : PicoRecord) (_t : Nat) : Except Fault Verdict := do
  let str ← currentBuffer.toString
  if currentBuffer.isThisRecordASizeInfo then
    let sizeOfNextBufferToReadStr := currentBuffer.data_.filter (· ≠ hash)
    let nextDataSize ← convertToSomething (cString sizeOfNextBufferToReadStr)
    .ok (.readNext nextDataSize)
  else .ok (.message str)

/-- What one `read_some` into a fresh buffer gives: the count and error it
returns, and what all of the buffer holds afterwards. -/
structure ReadSome where
  length : Nat
  error : Bool
  buffer : Bytes
deriving DecidableEq, Repr

/-- What the reader makes of it. -/
def ReadSome.verdict (r : ReadSome) : Except Fault Verdict :=
  processTheBufferJustRead (PicoRecord.getDataForRead r.buffer (.ofString [])) r.length

/-- `read_some` of a socket in state `σ`, by the number of bytes asked for. -/
abbrev Socket (σ : Type) := Nat → σ → Option (ReadSome × σ)

/-- One call of `read_some`, for the record. -/
structure ReadStep where
  asked : Nat
  got : Option ReadSome
deriving DecidableEq, Repr

/-! ## From the announced size to the size of a read -/

/-- `readOneBuffer(long)` and `readSync`: the assertion is about the `long`,
which then goes into the `int` that `new char[]` gets. -/
def Session.sizeToRead (dataSizeToReadNext : Int) : Except Fault Nat :=
  if 0 < dataSizeToReadNext then
    let numberOfCharsToRead := toInt dataSizeToReadNext
    if numberOfCharsToRead < 0 then .error (.exception .badArrayNewLength)
    else .ok numberOfCharsToRead.toNat
  else .error (.assertion .dataSizeToReadNext)

/-- `readOneBuffer(int)`: the argument is narrowed by the call, the assertion
comes after. -/
def Driver.sizeToRead (nextDataSize : Int) : Except Fault Nat :=
  let dataSizeToReadNext := toInt nextDataSize
  if 0 < dataSizeToReadNext then .ok dataSizeToReadNext.toNat
  else .error (.assertion .dataSizeToReadNext)

/-! ## `readOneBuffer` -/

/-- How a call of `readOneBuffer` ends. -/
inductive CallEnd (σ : Type) where
  /-- a message is there for `pico_message` -/
  | message (str : Bytes) (s : σ)
  /-- a `read_some` does not come back -/
  | waits (s : σ)
  | stops (f : Fault)
  | tooDeep
deriving DecidableEq, Repr

section Reading

variable {σ : Type} (sizeToRead : Int → Except Fault Nat) (socket : Socket σ)

/-- `readOneBuffer(dataSizeToReadNext)` with at most `depth` calls on the
stack, and the calls of `read_some` it makes. -/
def readOneBuffer : Nat → Int → σ → List ReadStep × CallEnd σ
  | 0, _, _ => ([], .tooDeep)
  | depth + 1, dataSizeToReadNext, s =>
    match sizeToRead dataSizeToReadNext with
    | .error f => ([], .stops f)
    | .ok n =>
      match socket n s with
      | none => ([⟨n, none⟩], .waits s)
      | some (r, s') =>
        match r.verdict with
        | .error f => ([⟨n, some r⟩], .stops f)
        | .ok (.message str) => ([⟨n, some r⟩], .message str s')
        | .ok (.readNext nextDataSize) =>
          let next := readOneBuffer depth nextDataSize s'
          (⟨n, some r⟩ :: next.1, next.2)

/-- How a number of top-level calls end. -/
inductive LoopEnd (σ : Type) where
  | returned (s : σ)
  | waits (s : σ)
  | stops (f : Fault)
  | tooDeep
deriving DecidableEq, Repr

/-- What a number of top-level calls do: their calls of `read_some`, the bodies
they hand to `pico_message`, and how they end. -/
structure Transcript (σ : Type) where
  steps : List ReadStep
  handed : List Bytes
  ending : LoopEnd σ
deriving DecidableEq, Repr

/-- `calls` top-level `readOneBuffer(10)`, one after the other. `deliver` is
`pico_message` and whatever runs before the next call. -/
def readCalls (deliver : Bytes → σ → Except Fault σ) (depth : Nat) : Nat → σ → Transcript σ
  | 0, s => ⟨[], [], .returned s⟩
  | calls + 1, s =>
    match readOneBuffer sizeToRead socket depth 10 s with
    | (steps, .waits s') => ⟨steps, [], .waits s'⟩
    | (steps, .stops f) => ⟨steps, [], .stops f⟩
    | (steps, .tooDeep) => ⟨steps, [], .tooDeep⟩
    | (steps, .message str s') =>
      match deliver str s' with
      | .error f => ⟨steps, [str], .stops f⟩
      | .ok s'' =>
        let next := readCalls deliver depth calls s''
        ⟨steps ++ next.steps, str :: next.handed, next.ending⟩

end Reading

/-- The reads of a stream that gives every read all it asks for, and keeps a
read waiting that asks for more than there is. -/
def wholeReads : Socket Bytes := fun n s =>
  if n ≤ s.length then some (⟨n, false, s.take n⟩, s.drop n) else none

/-! ## What a buffer is taken for -/

namespace ReadSome

/-- A non-empty buffer that is no size info is a message, all of it. -/
theorem verdict_message {r : ReadSome} (hne : r.buffer ≠ [])
    (h : (PicoRecord.ofString r.buffer).isThisRecordASizeInfo = false) :
    r.verdict = .ok (.message r.buffer) := by
  have hinfo : (PicoRecord.getDataForRead r.buffer (.ofString [])).isThisRecordASizeInfo =
      false := h
  have hstr : (PicoRecord.getDataForRead r.buffer (.ofString [])).toString = .ok r.buffer :=
    PicoRecord.toString_ofString hne
  simp only [verdict, processTheBufferJustRead, hinfo, hstr]
  rfl

/-- A size info is read as a number, `'#'` left out, up to the first NUL. -/
theorem verdict_sizeInfo {r : ReadSome}
    (h : (PicoRecord.ofString r.buffer).isThisRecordASizeInfo = true) :
    r.verdict = (convertToSomething (cString (r.buffer.filter (· ≠ hash)))).map
      Verdict.readNext := by
  have hne : r.buffer ≠ [] := by
    intro h0
    rw [h0] at h
    exact absurd h (by decide)
  have hinfo : (PicoRecord.getDataForRead r.buffer (.ofString [])).isThisRecordASizeInfo =
      true := h
  have hstr : (PicoRecord.getDataForRead r.buffer (.ofString [])).toString = .ok r.buffer :=
    PicoRecord.toString_ofString hne
  simp only [verdict, processTheBufferJustRead, hinfo, hstr]
  rfl

/-- An empty buffer fails the assertion of `toString`. -/
theorem verdict_empty {r : ReadSome} (h : r.buffer = []) :
    r.verdict = .error (.assertion .strNotEmpty) := by
  simp only [verdict, processTheBufferJustRead, PicoRecord.getDataForRead, PicoRecord.toString, h]
  rfl

/-- A message is the buffer it was read into. -/
theorem message_of_verdict {r : ReadSome} {str : Bytes} (h : r.verdict = .ok (.message str)) :
    str = r.buffer ∧ r.buffer ≠ [] := by
  by_cases hne : r.buffer = []
  · rw [verdict_empty hne] at h
    cases h
  · cases hinfo : (PicoRecord.ofString r.buffer).isThisRecordASizeInfo with
    | false =>
      rw [verdict_message hne hinfo] at h
      cases h
      exact ⟨rfl, hne⟩
    | true =>
      rw [verdict_sizeInfo hinfo] at h
      rcases map_eq_ok h with ⟨m, -, hm⟩
      cases hm

/-- A size comes from a size info. -/
theorem convertToSomething_of_verdict {r : ReadSome} {m : Int}
    (h : r.verdict = .ok (.readNext m)) :
    convertToSomething (cString (r.buffer.filter (· ≠ hash))) = .ok m ∧
      (PicoRecord.ofString r.buffer).isThisRecordASizeInfo = true := by
  by_cases hne : r.buffer = []
  · rw [verdict_empty hne] at h
    cases h
  · cases hinfo : (PicoRecord.ofString r.buffer).isThisRecordASizeInfo with
    | false =>
      rw [verdict_message hne hinfo] at h
      cases h
    | true =>
      rw [verdict_sizeInfo hinfo] at h
      rcases map_eq_ok h with ⟨m', hm', heq⟩
      cases heq
      exact ⟨hm', rfl⟩

end ReadSome

/-! ## The sizes that are asked for -/

theorem Session.sizeToRead_eq_ok {d : Int} {n : Nat} (h : Session.sizeToRead d = .ok n) :
    0 < d ∧ toInt d = n := by
  unfold Session.sizeToRead at h
  split at h
  · dsimp only at h
    split at h
    · cases h
    · cases h
      exact ⟨by assumption, by omega⟩
  · cases h

theorem Session.sizeToRead_of_pos {d : Int} (hd : 0 < d) (h : 0 ≤ toInt d) :
    Session.sizeToRead d = .ok (toInt d).toNat := by
  rw [Session.sizeToRead, if_pos hd]
  exact if_neg (by omega)

theorem Driver.sizeToRead_eq_ok {d : Int} {n : Nat} (h : Driver.sizeToRead d = .ok n) :
    0 < n ∧ toInt d = n := by
  unfold Driver.sizeToRead at h
  dsimp only at h
  split at h
  · cases h
    omega
  · cases h

theorem Driver.sizeToRead_of_pos {d : Int} (h : 0 < toInt d) :
    Driver.sizeToRead d = .ok (toInt d).toNat := by
  rw [Driver.sizeToRead]
  exact if_pos h

/-- A reader asks for the sizes an `int` can hold as they are. -/
def Faithful (sizeToRead : Int → Except Fault Nat) : Prop :=
  ∀ n : Nat, 0 < n → n < 2 ^ 31 → sizeToRead n = .ok n

theorem Session.faithful : Faithful Session.sizeToRead := by
  intro n h0 h
  have hint := toInt_of_lt h
  rw [Session.sizeToRead_of_pos (by omega) (by omega), hint, Int.toNat_natCast]

theorem Driver.faithful : Faithful Driver.sizeToRead := by
  intro n h0 h
  have hint := toInt_of_lt h
  rw [Driver.sizeToRead_of_pos (by omega), hint, Int.toNat_natCast]

/-! ## One call of `readOneBuffer` -/

section Call

variable {σ : Type} {sizeToRead : Int → Except Fault Nat} {socket : Socket σ} {depth n : Nat}
  {d : Int} {s s' : σ} {r : ReadSome}

theorem readOneBuffer_refused {f : Fault} (hsize : sizeToRead d = .error f) :
    readOneBuffer sizeToRead socket (depth + 1) d s = ([], .stops f) := by
  simp only [readOneBuffer, hsize]

theorem readOneBuffer_waits (hsize : sizeToRead d = .ok n) (hread : socket n s = none) :
    readOneBuffer sizeToRead socket (depth + 1) d s = ([⟨n, none⟩], .waits s) := by
  simp only [readOneBuffer, hsize, hread]

theorem readOneBuffer_fault {f : Fault} (hsize : sizeToRead d = .ok n)
    (hread : socket n s = some (r, s')) (hv : r.verdict = .error f) :
    readOneBuffer sizeToRead socket (depth + 1) d s = ([⟨n, some r⟩], .stops f) := by
  simp only [readOneBuffer, hsize, hread, hv]

theorem readOneBuffer_message {str : Bytes} (hsize : sizeToRead d = .ok n)
    (hread : socket n s = some (r, s')) (hv : r.verdict = .ok (.message str)) :
    readOneBuffer sizeToRead socket (depth + 1) d s = ([⟨n, some r⟩], .message str s') := by
  simp only [readOneBuffer, hsize, hread, hv]

theorem readOneBuffer_readNext {m : Int} (hsize : sizeToRead d = .ok n)
    (hread : socket n s = some (r, s')) (hv : r.verdict = .ok (.readNext m)) :
    readOneBuffer sizeToRead socket (depth + 1) d s =
      (⟨n, some r⟩ :: (readOneBuffer sizeToRead socket depth m s').1,
        (readOneBuffer sizeToRead socket depth m s').2) := by
  simp only [readOneBuffer, hsize, hread, hv]

/-- How far a call gets: to the size, to the read, or to what its buffer is
taken for. -/
inductive CallCases (sizeToRead : Int → Except Fault Nat) (socket : Socket σ) (d : Int) (s : σ) :
    Prop where
  | refused {f : Fault} (hsize : sizeToRead d = .error f)
  | waits {n : Nat} (hsize : sizeToRead d = .ok n) (hread : socket n s = none)
  | fault {n : Nat} {r : ReadSome} {s' : σ} {f : Fault} (hsize : sizeToRead d = .ok n)
      (hread : socket n s = some (r, s')) (hv : r.verdict = .error f)
  | message {n : Nat} {r : ReadSome} {s' : σ} {str : Bytes} (hsize : sizeToRead d = .ok n)
      (hread : socket n s = some (r, s')) (hv : r.verdict = .ok (.message str))
  | readNext {n : Nat} {r : ReadSome} {s' : σ} {m : Int} (hsize : sizeToRead d = .ok n)
      (hread : socket n s = some (r, s')) (hv : r.verdict = .ok (.readNext m))

theorem callCases (sizeToRead : Int → Except Fault Nat) (socket : Socket σ) (d : Int) (s : σ) :
    CallCases sizeToRead socket d s := by
  cases hsize : sizeToRead d with
  | error f => exact .refused hsize
  | ok n =>
    cases hread : socket n s with
    | none => exact .waits hsize hread
    | some p =>
      rcases p with ⟨r, s'⟩
      cases hv : r.verdict with
      | error f => exact .fault hsize hread hv
      | ok v =>
        cases v with
        | message str => exact .message hsize hread hv
        | readNext m => exact .readNext hsize hread hv

end Call

/-! ## Top-level calls -/

/-- The message a call comes back with, and what it leaves. -/
def CallEnd.handedOn {σ : Type} : CallEnd σ → Option (Bytes × σ)
  | .message str s => some (str, s)
  | _ => none

section Calls

variable {σ : Type} {socket : Socket σ} {g : Int → Except Fault Nat}
  {deliver : Bytes → σ → Except Fault σ} {depth calls : Nat} {s s' : σ} {str : Bytes}

variable (deliver calls) in
theorem readCalls_handedOn_none
    (h : (readOneBuffer g socket depth 10 s).2.handedOn = none) :
    (readCalls g socket deliver depth (calls + 1) s).steps =
        (readOneBuffer g socket depth 10 s).1 ∧
      (readCalls g socket deliver depth (calls + 1) s).handed = [] := by
  rcases hcall : readOneBuffer g socket depth 10 s with ⟨steps, ending⟩
  rw [hcall] at h
  cases ending with
  | message str s' => cases h
  | waits s' => simp [readCalls, hcall]
  | stops f => simp [readCalls, hcall]
  | tooDeep => simp [readCalls, hcall]

variable (deliver calls) in
theorem readCalls_message {steps : List ReadStep}
    (hcall : readOneBuffer g socket depth 10 s = (steps, .message str s')) :
    readCalls g socket deliver depth (calls + 1) s =
      match deliver str s' with
      | .error f => ⟨steps, [str], .stops f⟩
      | .ok s'' =>
        let next := readCalls g socket deliver depth calls s''
        ⟨steps ++ next.steps, str :: next.handed, next.ending⟩ := by
  simp only [readCalls, hcall]

theorem call_of_handedOn (h : (readOneBuffer g socket depth 10 s).2.handedOn = some (str, s')) :
    readOneBuffer g socket depth 10 s =
      ((readOneBuffer g socket depth 10 s).1, .message str s') := by
  rcases hcall : readOneBuffer g socket depth 10 s with ⟨steps, ending⟩
  rw [hcall] at h
  cases ending with
  | message str' t =>
    cases h
    rfl
  | waits s' => cases h
  | stops f => cases h
  | tooDeep => cases h

variable (g socket deliver depth calls s) in
/-- The reads of a run start with those of its first call. -/
theorem readCalls_steps :
    ∃ more, (readCalls g socket deliver depth (calls + 1) s).steps =
      (readOneBuffer g socket depth 10 s).1 ++ more := by
  cases hend : (readOneBuffer g socket depth 10 s).2.handedOn with
  | none => exact ⟨[], by rw [(readCalls_handedOn_none _ _ hend).1, List.append_nil]⟩
  | some p =>
    rcases p with ⟨str, s'⟩
    rw [readCalls_message _ _ (call_of_handedOn hend)]
    cases deliver str s' with
    | error f => exact ⟨[], by rw [List.append_nil]⟩
    | ok s'' => exact ⟨_, rfl⟩

/-- What every read of the socket satisfies, every read of a run does. -/
theorem forall_steps (Q : ReadStep → Prop) (hnone : ∀ n s, socket n s = none → Q ⟨n, none⟩)
    (hsome : ∀ n s r s', socket n s = some (r, s') → Q ⟨n, some r⟩)
    (deliver : Bytes → σ → Except Fault σ) (depth calls : Nat) (s : σ) :
    ∀ step ∈ (readCalls g socket deliver depth calls s).steps, Q step := by
  have hcall : ∀ depth d s, ∀ step ∈ (readOneBuffer g socket depth d s).1, Q step := by
    intro depth
    induction depth with
    | zero => simp [readOneBuffer]
    | succ depth ih =>
      intro d s
      cases callCases g socket d s with
      | refused hsize => simp [readOneBuffer_refused hsize]
      | waits hsize hread =>
        simpa [readOneBuffer_waits hsize hread] using hnone _ s hread
      | fault hsize hread hv =>
        simpa [readOneBuffer_fault hsize hread hv] using hsome _ s _ _ hread
      | message hsize hread hv =>
        simpa [readOneBuffer_message hsize hread hv] using hsome _ s _ _ hread
      | @readNext n r s' m hsize hread hv =>
        rw [readOneBuffer_readNext hsize hread hv]
        exact List.forall_mem_cons.mpr ⟨hsome n s r s' hread, ih m s'⟩
  induction calls generalizing s with
  | zero => simp [readCalls]
  | succ calls ih =>
    have hfirst := hcall depth 10 s
    cases hend : (readOneBuffer g socket depth 10 s).2.handedOn with
    | none => rwa [(readCalls_handedOn_none _ _ hend).1]
    | some p =>
      rcases p with ⟨str, s'⟩
      rw [readCalls_message _ _ (call_of_handedOn hend)]
      cases deliver str s' with
      | error f => exact hfirst
      | ok s'' => exact List.forall_mem_append.mpr ⟨hfirst, ih s''⟩

end Calls

/-! ## Reads that use up their input -/

/-- Every buffer that is taken for something used up some of what is left. -/
def Consuming {σ : Type} (socket : Socket σ) (left : σ → Nat) : Prop :=
  ∀ n s r s' v, socket n s = some (r, s') → r.verdict = .ok v → left s' < left s

section Consuming

variable {σ : Type} {socket : Socket σ} {left : σ → Nat}

/-- Deeper calls find less to read, so no call nests deeper than there are bytes. -/
theorem readOneBuffer_consuming (hc : Consuming socket left) (g : Int → Except Fault Nat)
    (depth : Nat) (d : Int) (s : σ) (hd : left s < depth) :
    (readOneBuffer g socket depth d s).2 ≠ .tooDeep ∧
      ∀ str s', (readOneBuffer g socket depth d s).2 = .message str s' → left s' < left s := by
  induction depth generalizing d s with
  | zero => omega
  | succ depth ih =>
    cases callCases g socket d s with
    | refused hsize => simp [readOneBuffer_refused hsize]
    | waits hsize hread => simp [readOneBuffer_waits hsize hread]
    | fault hsize hread hv => simp [readOneBuffer_fault hsize hread hv]
    | message hsize hread hv =>
      rw [readOneBuffer_message hsize hread hv]
      refine ⟨by simp, fun str' t h => ?_⟩
      cases h
      exact hc _ s _ _ _ hread hv
    | @readNext n r s' m hsize hread hv =>
      -- one byte is gone, so the inner call fits into one level less
      have hless := hc n s r s' _ hread hv
      have hnext := ih m s' (by omega)
      rw [readOneBuffer_readNext hsize hread hv]
      exact ⟨hnext.1, fun str t h => lt_trans (hnext.2 str t h) hless⟩

/-- As many calls as there are bytes, and one more, end in a read that waits
or in a fault. -/
theorem readCalls_consuming (hc : Consuming socket left) (g : Int → Except Fault Nat)
    {deliver : Bytes → σ → Except Fault σ}
    (hdeliver : ∀ str s s', deliver str s = .ok s' → left s' ≤ left s) (depth calls : Nat) (s : σ)
    (hd : left s < depth) (hcalls : left s < calls) :
    (∃ s', (readCalls g socket deliver depth calls s).ending = .waits s') ∨
      ∃ f, (readCalls g socket deliver depth calls s).ending = .stops f := by
  induction calls generalizing s with
  | zero => omega
  | succ calls ih =>
    have hcall := readOneBuffer_consuming hc g depth 10 s hd
    rcases hone : readOneBuffer g socket depth 10 s with ⟨steps, ending⟩
    rw [hone] at hcall
    cases ending with
    | tooDeep => exact absurd rfl hcall.1
    | waits s' => exact Or.inl ⟨s', by simp only [readCalls, hone]⟩
    | stops f => exact Or.inr ⟨f, by simp only [readCalls, hone]⟩
    | message str s' =>
      rw [readCalls_message _ _ hone]
      have hless := hcall.2 str s' rfl
      cases hdel : deliver str s' with
      | error f => exact Or.inr ⟨f, rfl⟩
      | ok s'' =>
        have hle := hdeliver str s' s'' hdel
        exact ih s'' (by omega) (by omega)

end Consuming

/-! ## Streams that give every read all it asks for -/

theorem wholeReads_of_le {n : Nat} {s : Bytes} (h : n ≤ s.length) :
    wholeReads n s = some (⟨n, false, s.take n⟩, s.drop n) := if_pos h

theorem wholeReads_append (a b : Bytes) :
    wholeReads a.length (a ++ b) = some (⟨a.length, false, a⟩, b) := by
  simp [wholeReads]

theorem wholeReads_eq_some {n : Nat} {s s' : Bytes} {r : ReadSome}
    (h : wholeReads n s = some (r, s')) :
    r = ⟨n, false, s.take n⟩ ∧ s' = s.drop n ∧ n ≤ s.length := by
  unfold wholeReads at h
  split at h
  · cases h
    exact ⟨rfl, rfl, by assumption⟩
  · cases h

end PicoDB
