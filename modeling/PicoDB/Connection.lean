import PicoDB.Framing

/-!
# PicoDB.Connection — `read_some` as it is

A real `read_some` gives what is there, and at the end of the stream nothing
and an error. The fresh buffer is then filled in part or not at all; what is
left of it is whatever the heap held. Count and error are not looked at.

`full_reads_are_harmless` says what is handed over as long as every read
happens to be full, `short_reads_are_not_harmless` what may be otherwise. A
message is framed correctly when its body is `Sendable` and accepted by
`pico_message(string)`, and its header has the text of its size.
-/

namespace PicoDB

/-! ## `read_some` -/

/-- The environment of a connection; the functions of a number are about the
moment after that many reads. -/
structure Peer where
  /-- the other side closes when it has sent everything -/
  closes : Bool
  /-- how many bytes a read gets, as far as there are that many -/
  cut : Nat → Nat
  /-- what the fresh buffer of a read holds -/
  heap : Nat → Nat → Byte
  /-- what a write finds behind its strings -/
  memory : Nat → Memory
  /-- what is left of the size text of a write, see `Session.writeOneBuffer` -/
  dangling : Nat → Bytes
  /-- `boost::asio::write` goes through -/
  takes : Nat → Bool

/-- A connection: the bytes on their way in, the reads made, the bytes sent. -/
structure Connection where
  incoming : Bytes
  calls : Nat := 0
  outgoing : Bytes := []
deriving DecidableEq, Repr

namespace Peer

/-- `read_some(buffer(getDataForRead(n), n), error)`. -/
def readSome (P : Peer) : Socket Connection := fun n c =>
  let fresh := (List.range n).map (P.heap c.calls)
  let c' := { c with calls := c.calls + 1 }
  if n = 0 then some (⟨0, false, []⟩, c')
  else if c.incoming = [] then
    -- at the end of the stream the buffer is not touched
    if P.closes then some (⟨0, true, fresh⟩, c') else none
  else
    -- at least one byte, at most what is there and what was asked for
    let length := min (max 1 (P.cut c.calls)) (min n c.incoming.length)
    some (⟨length, false, c.incoming.take length ++ fresh.drop length⟩,
      { c' with incoming := c.incoming.drop length })

variable {P : Peer} {n : Nat} {c c' : Connection} {r : ReadSome}

theorem readSome_eq_none (h : P.readSome n c = none) :
    n ≠ 0 ∧ P.closes = false ∧ c.incoming = [] := by
  unfold readSome at h
  dsimp only at h
  split at h
  · cases h
  · split at h
    · split at h
      · cases h
      · rename_i hn hin hcl
        exact ⟨hn, by simpa using hcl, hin⟩
    · cases h

/-- What a read leaves, whatever it gets. -/
theorem readSome_frame (h : P.readSome n c = some (r, c')) :
    c'.calls = c.calls + 1 ∧ r.buffer.length = n := by
  unfold readSome at h
  dsimp only at h
  split at h
  · rename_i hn
    cases h
    exact ⟨rfl, hn.symm⟩
  · split at h
    · split at h
      · cases h
        exact ⟨rfl, by simp⟩
      · cases h
    · cases h
      refine ⟨rfl, ?_⟩
      simp only [List.length_append, List.length_take, List.length_drop, List.length_map,
        List.length_range]
      omega

/-- A full read without error is a read of the stream. -/
theorem readSome_whole (h : P.readSome n c = some (r, c')) (herror : r.error = false)
    (hlength : r.length = n) :
    wholeReads n c.incoming = some (r, c'.incoming) := by
  unfold readSome at h
  dsimp only at h
  split at h
  · rename_i hn
    cases h
    subst hn
    rfl
  · split at h
    · split at h
      · cases h
        cases herror
      · cases h
    · -- the count is the one asked for, so nothing of the fresh buffer is left
      cases h
      dsimp only at hlength ⊢
      rw [hlength, wholeReads_of_le (by omega)]
      simp

/-- A read that is taken for something took a byte, while the other side stays. -/
theorem readSome_consuming (hopen : P.closes = false) :
    Consuming P.readSome fun c => c.incoming.length := by
  intro n c r c' v h hv
  unfold readSome at h
  dsimp only at h
  split at h
  · -- a read of nothing is taken for nothing
    cases h
    rw [ReadSome.verdict_empty rfl] at hv
    cases hv
  · split at h
    · simp [hopen] at h
    · rename_i hn hin
      have hlen := List.length_pos_of_ne_nil hin
      cases h
      simp only [List.length_drop]
      omega

end Peer

/-! ## Full reads -/

/-- The read came back full and without error, if it came back. -/
def ReadStep.Whole (step : ReadStep) : Prop :=
  ∀ r, step.got = some r → r.error = false ∧ r.length = step.asked

instance (step : ReadStep) : Decidable step.Whole :=
  match h : step.got with
  | none => .isTrue fun r hr => by rw [h] at hr; cases hr
  | some r =>
    decidable_of_iff (r.error = false ∧ r.length = step.asked)
      ⟨fun hw r' hr' => by rw [h] at hr'; cases hr'; exact hw, fun hw => hw r h⟩

/-- The same end over another state. -/
def CallEnd.map {σ τ : Type} (f : σ → τ) : CallEnd σ → CallEnd τ
  | .message str s => .message str (f s)
  | .waits s => .waits (f s)
  | .stops e => .stops e
  | .tooDeep => .tooDeep

/-- The same end over another state. -/
def LoopEnd.map {σ τ : Type} (f : σ → τ) : LoopEnd σ → LoopEnd τ
  | .returned s => .returned (f s)
  | .waits s => .waits (f s)
  | .stops e => .stops e
  | .tooDeep => .tooDeep

/-- Handing a body to `pico_message`, which may refuse it; the stream is left
alone. -/
def handOver {σ : Type} (accepts : Bytes → Except Fault Unit) (str : Bytes) (s : σ) :
    Except Fault σ := (accepts str).map fun _ => s

section WholeReads

variable {P : Peer} {g : Int → Except Fault Nat}

/-- Step lemma: a call whose reads are all full is a call on the stream. -/
theorem readOneBuffer_whole (depth : Nat) (d : Int) (c : Connection)
    (hw : ∀ step ∈ (readOneBuffer g P.readSome depth d c).1, step.Whole) :
    readOneBuffer g wholeReads depth d c.incoming =
      ((readOneBuffer g P.readSome depth d c).1,
        (readOneBuffer g P.readSome depth d c).2.map Connection.incoming) := by
  induction depth generalizing d c with
  | zero => rfl
  | succ depth ih =>
    -- the read itself is full, so the stream gives the same bytes
    have hread_whole : ∀ n r c', g d = .ok n → P.readSome n c = some (r, c') →
        wholeReads n c.incoming = some (r, c'.incoming) := by
      intro n r c' hsize hread
      have hstep : ReadStep.Whole ⟨n, some r⟩ := by
        refine hw _ ?_
        simp only [readOneBuffer, hsize, hread]
        split <;> simp
      exact P.readSome_whole hread (hstep r rfl).1 (hstep r rfl).2
    cases callCases g P.readSome d c with
    | refused hsize =>
      rw [readOneBuffer_refused hsize, readOneBuffer_refused hsize]
      rfl
    | @waits n hsize hread =>
      rcases P.readSome_eq_none hread with ⟨hn, -, hin⟩
      have hread' : wholeReads n c.incoming = none := by
        rw [hin]
        exact if_neg (by simpa using hn)
      rw [readOneBuffer_waits hsize hread, readOneBuffer_waits hsize hread']
      rfl
    | fault hsize hread hv =>
      have hread' := hread_whole _ _ _ hsize hread
      rw [readOneBuffer_fault hsize hread hv, readOneBuffer_fault hsize hread' hv]
      rfl
    | message hsize hread hv =>
      have hread' := hread_whole _ _ _ hsize hread
      rw [readOneBuffer_message hsize hread hv, readOneBuffer_message hsize hread' hv]
      rfl
    | @readNext n r c' m hsize hread hv =>
      have hread' := hread_whole _ _ _ hsize hread
      rw [readOneBuffer_readNext hsize hread hv] at hw ⊢
      rw [readOneBuffer_readNext hsize hread' hv,
        ih m c' fun step h => hw step (List.mem_cons_of_mem _ h)]

/-- Run lemma: calls whose reads are all full are calls on the stream. -/
theorem readCalls_whole (accepts : Bytes → Except Fault Unit) (depth calls : Nat) (c : Connection)
    (hw : ∀ step ∈ (readCalls g P.readSome (handOver accepts) depth calls c).steps, step.Whole) :
    (readCalls g wholeReads (handOver accepts) depth calls c.incoming).handed =
        (readCalls g P.readSome (handOver accepts) depth calls c).handed ∧
      (readCalls g wholeReads (handOver accepts) depth calls c.incoming).ending =
        (readCalls g P.readSome (handOver accepts) depth calls c).ending.map
          Connection.incoming := by
  induction calls generalizing c with
  | zero => exact ⟨rfl, rfl⟩
  | succ calls ih =>
    have hfirst : ∀ step ∈ (readOneBuffer g P.readSome depth 10 c).1, step.Whole := by
      rcases readCalls_steps P.readSome g (handOver accepts) depth calls c with ⟨more, hmore⟩
      intro step h
      exact hw step (by rw [hmore]; exact List.mem_append_left _ h)
    have hcall := readOneBuffer_whole depth 10 c hfirst
    rcases hone : readOneBuffer g P.readSome depth 10 c with ⟨steps, ending⟩
    rw [hone] at hcall
    cases ending with
    | waits c' => simp only [readCalls, hone, hcall, CallEnd.map, LoopEnd.map, and_self]
    | stops f => simp only [readCalls, hone, hcall, CallEnd.map, LoopEnd.map, and_self]
    | tooDeep => simp only [readCalls, hone, hcall, CallEnd.map, LoopEnd.map, and_self]
    | message str c' =>
      rw [readCalls_message _ _ hone] at hw ⊢
      rw [readCalls_message _ _ hcall]
      cases hacc : accepts str with
      | error f =>
        simp only [handOver, hacc]
        exact ⟨rfl, rfl⟩
      | ok u =>
        simp only [handOver, hacc, Except.map] at hw ⊢
        have hnext := ih c' fun step h => hw step (List.mem_append_right _ h)
        exact ⟨by rw [hnext.1], hnext.2⟩

end WholeReads

/-- A run hands over the bodies in order and then waits, and a read that failed
is taken for nothing. -/
structure ReadsCorrectly (bodies : List Bytes) (calls : Nat) (t : Transcript Connection) :
    Prop where
  handed : t.handed = bodies.take calls
  waits : bodies.length < calls → ∃ c, t.ending = .waits c ∧ c.incoming = []
  failed : ∀ step ∈ t.steps, ∀ r, step.got = some r → r.error = true ∨ r.length = 0 →
    ∀ v, r.verdict ≠ .ok v

theorem readsCorrectly_of_whole {P : Peer} {g : Int → Except Fault Nat} (hsize : Faithful g)
    {text : Nat → Bytes} (htext : ∀ n, text n = convertToString n) {bodies : List Bytes}
    {frames : List Frame} (hbodies : ∀ b ∈ bodies, Sendable b)
    (hframes : List.Forall₂ (Written (writeOneBuffer text)) bodies frames)
    {accepts : Bytes → Except Fault Unit} (haccepts : ∀ b ∈ bodies, accepts b = .ok ())
    {depth : Nat} (hdepth : 2 ≤ depth) (calls : Nat) {c : Connection}
    (hc : c.incoming = frames.flatMap Frame.bytes)
    (hw : ∀ step ∈ (readCalls g P.readSome (handOver accepts) depth calls c).steps, step.Whole) :
    ReadsCorrectly bodies calls (readCalls g P.readSome (handOver accepts) depth calls c) := by
  have hwhole := readCalls_whole accepts depth calls c hw
  have hdeliver : ∀ b ∈ bodies, ∀ s : Bytes, handOver accepts b s = .ok s := by
    intro b hb s
    rw [handOver, haccepts b hb]
    rfl
  have hback := readsBack_frames hsize htext hbodies hframes hdeliver hdepth calls
  rw [← hc] at hback
  refine ⟨by rw [← hwhole.1, hback.1], fun hlt => ?_, ?_⟩
  · have hend := hback.2.2 hlt
    rw [hwhole.2] at hend
    cases ht : (readCalls g P.readSome (handOver accepts) depth calls c).ending with
    | waits c' =>
      rw [ht] at hend
      exact ⟨c', rfl, LoopEnd.waits.inj hend⟩
    | returned c' => rw [ht] at hend; cases hend
    | stops f => rw [ht] at hend; cases hend
    | tooDeep => rw [ht] at hend; cases hend
  · -- a full read of nothing has an empty buffer
    intro step hstep r hr hfail v hv
    have hfull := hw step hstep r hr
    have hlen : r.buffer.length = step.asked := by
      refine forall_steps (fun step => ∀ r, step.got = some r → r.buffer.length = step.asked)
        ?_ ?_ _ depth calls c step hstep r hr
      · simp
      · intro n c r c' h r' hr'
        cases hr'
        exact (P.readSome_frame h).2
    rcases hfail with herror | hzero
    · rw [hfull.1] at herror
      cases herror
    · rw [ReadSome.verdict_empty (List.length_eq_zero_iff.mp (by omega))] at hv
      cases hv

/-- **Full reads are harmless.** In every run whose reads all come back full
and without error, whatever the environment does otherwise, session and driver
hand over exactly the bodies that were sent, in order, and take no failed read
for anything. -/
theorem full_reads_are_harmless {P : Peer} {bodies : List Bytes} {frames : List Frame}
    (hbodies : ∀ b ∈ bodies, Sendable b) {dangling : Nat → Bytes}
    (hdangling : ∀ n, cString (dangling n) = convertToString n)
    {accepts : Bytes → Except Fault Unit} (haccepts : ∀ b ∈ bodies, accepts b = .ok ())
    {depth : Nat} (hdepth : 2 ≤ depth) (calls : Nat) {c : Connection}
    (hc : c.incoming = frames.flatMap Frame.bytes) :
    (List.Forall₂ (Written Driver.writeOneBuffer) bodies frames →
      let t := readCalls Session.sizeToRead P.readSome (handOver accepts) depth calls c
      (∀ step ∈ t.steps, step.Whole) → ReadsCorrectly bodies calls t) ∧
    (List.Forall₂ (Written (Session.writeOneBuffer dangling)) bodies frames →
      let t := readCalls Driver.sizeToRead P.readSome (handOver accepts) depth calls c
      (∀ step ∈ t.steps, step.Whole) → ReadsCorrectly bodies calls t) :=
  ⟨fun hf hw => readsCorrectly_of_whole Session.faithful (fun _ => rfl) hbodies hf haccepts hdepth
      calls hc hw,
    fun hf hw => readsCorrectly_of_whole Driver.faithful hdangling hbodies hf haccepts hdepth
      calls hc hw⟩

/-- An environment without surprises, up to closing and to where it cuts. -/
def Peer.quiet (closes : Bool) (cut : Nat → Nat) : Peer :=
  { closes, cut, heap := fun _ _ => 0, memory := fun _ => .zeros, dangling := convertToString,
    takes := fun _ => true }

theorem full_reads_are_harmless_one :
    let X := jsoncpp (fun _ => none) fun _ => 0
    let accepts := fun b => constructMessage X b ()
    let stream := ascii "####3" ++ [0, 0, 0, 0, 0] ++ ascii "\x7b \x7d"
    ReadsCorrectly [ascii "\x7b \x7d"] 2 (readCalls Session.sizeToRead
        (Peer.quiet false id).readSome (handOver accepts) 2 2 ⟨stream, 100, []⟩) ∧
      ReadsCorrectly [ascii "\x7b \x7d"] 2 (readCalls Driver.sizeToRead
        (Peer.quiet false id).readSome (handOver accepts) 2 2 ⟨stream, 100, []⟩) := by
  intro X accepts stream
  have hbodies : ∀ b ∈ [ascii "\x7b \x7d"], Sendable b := by decide +kernel
  have hdangling : ∀ n, cString (convertToString n) = convertToString n :=
    fun n => cString_of_zero_notMem (zero_notMem_convertToString n)
  have haccepts : ∀ b ∈ [ascii "\x7b \x7d"], accepts b = .ok () := by decide +kernel
  let frames : List Frame := [⟨ascii "####3" ++ [0, 0, 0, 0, 0], ascii "\x7b \x7d"⟩]
  have hc : (⟨stream, 100, []⟩ : Connection).incoming = frames.flatMap Frame.bytes := rfl
  have hdriver : List.Forall₂ (Written Driver.writeOneBuffer) [ascii "\x7b \x7d"] frames :=
    .cons ⟨.zeros, rfl⟩ .nil
  have hsession : List.Forall₂ (Written (Session.writeOneBuffer convertToString))
      [ascii "\x7b \x7d"] frames := .cons ⟨.zeros, rfl⟩ .nil
  have hboth := full_reads_are_harmless (P := Peer.quiet false id) hbodies hdangling haccepts
    (le_refl 2) 2 hc
  exact ⟨hboth.1 hdriver (by decide +kernel), hboth.2 hsession (by decide +kernel)⟩

/-- The header of an empty object arrives in two parts: three zeros of the header
are handed over in the place of the object. The other side closes: a buffer that
was never filled is handed over. -/
theorem short_reads_are_not_harmless :
    let X := jsoncpp (fun _ => none) fun _ => 0
    let accepts := fun b => constructMessage X b ()
    let split := readCalls Session.sizeToRead (Peer.quiet false fun _ => 5).readSome
      (handOver accepts) 2 1 ⟨ascii "####3" ++ [0, 0, 0, 0, 0] ++ ascii "\x7b \x7d", 0, []⟩
    let closed := readCalls Session.sizeToRead (Peer.quiet true fun _ => 5).readSome
      (handOver accepts) 2 1 ⟨[], 0, []⟩
    (split.handed = [[0, 0, 0]] ∧ ¬ ReadsCorrectly [ascii "\x7b \x7d"] 1 split) ∧
      closed.steps = [⟨10, some ⟨0, true, List.replicate 10 0⟩⟩] ∧
      closed.handed = [List.replicate 10 0] := by
  intro X accepts split closed
  have hsplit : split.handed = [[0, 0, 0]] := by decide +kernel
  refine ⟨⟨hsplit, fun h => ?_⟩, by decide +kernel, by decide +kernel⟩
  exact absurd (hsplit.symm.trans h.handed) (by decide)

end PicoDB
