import PicoDB.Connection

/-!
# PicoDB.Session — `pico_session::start` on whatever a client sends

The session answers every message with the message itself. Faults leave the
loop in two ways: an assertion takes the process down, an exception is caught
in `start`, which returns and lets the session go; its destructor asserts
`shutDownNormally`, which nothing ever sets.

`session_survives_iff` says which input a session outlives: the client keeps
the connection open, and every buffer is bearable (`Bearable`). A size is read one
call deeper than its header; the call stack is taken to be unbounded.
-/

namespace PicoDB

namespace Session

/-- What happens to a complete message: `pico_message`,
`processDataFromOtherSide`, `queueMessages`, and, back in `start`,
`writeOneBuffer`. -/
def reply (X : Externals) (P : Peer) (str : Bytes) (c : Connection) : Except Fault Connection := do
  let last_read_message ← PicoMessage.ofJson X str
  -- the reply is the message itself
  if last_read_message.toString = [] then .error (.assertion .replyNotEmpty)
  else
    let frame ← writeOneBuffer P.dangling (P.memory c.calls)
      last_read_message.getCompleteMessageInJsonAsOnBuffer
    if P.takes c.calls then .ok { c with outgoing := c.outgoing ++ frame.bytes }
    else .error (.exception .systemError)

/-- What becomes of a session. -/
inductive RunEnd where
  /-- it waits for more bytes -/
  | waits
  /-- it is gone and the process goes on -/
  | ended
  | aborts (a : Assertion)
  /-- neither yet -/
  | running
deriving DecidableEq, Repr

/-- The handlers of `start`, and `~pico_session` once `start` has returned. -/
def finish {σ : Type} (shutDownNormally : Bool) : LoopEnd σ → RunEnd
  | .waits _ => .waits
  | .stops (.assertion a) => .aborts a
  -- caught in `start`, which returns
  | .stops (.exception _) => if shutDownNormally then .ended else .aborts .shutDownNormally
  | .returned _ => .running
  | .tooDeep => .running

/-- The calls of the loop in `start`, and how they end; the flag is as the
constructor leaves it. -/
def transcript (X : Externals) (P : Peer) (fuel : Nat) (sent : Bytes) : Transcript Connection :=
  readCalls sizeToRead P.readSome (reply X P) fuel fuel { incoming := sent }

/-- `start`, up to `fuel` messages and `fuel` nested reads. -/
def start (X : Externals) (P : Peer) (fuel : Nat) (sent : Bytes) : RunEnd :=
  finish false (transcript X P fuel sent).ending

/-! ## Bearable buffers -/

/-- A buffer the session gets over: it announces a size that is positive as a
`long` and as an `int`, or it is a message that parses, is longer than two
bytes as a C string, and whose reply goes out. -/
def Bearable (X : Externals) (P : Peer) (calls : Nat) (r : ReadSome) : Prop :=
  (∃ m, r.verdict = .ok (.readNext m) ∧ 0 < m ∧ 0 < toInt m) ∨
    (r.verdict = .ok (.message r.buffer) ∧ (∃ m, PicoMessage.ofJson X r.buffer = .ok m) ∧
      2 < (cString (r.buffer ++ (P.memory calls).beyond)).length ∧ P.takes calls = true)

/-- The buffers of all reads are bearable, each at its place in the run. -/
def AllBearable (X : Externals) (P : Peer) : Nat → List ReadStep → Prop
  | _, [] => True
  | calls, step :: steps =>
    (∀ r, step.got = some r → Bearable X P (calls + 1) r) ∧ AllBearable X P (calls + 1) steps

theorem allBearable_append {X : Externals} {P : Peer} (a b : List ReadStep) (calls : Nat) :
    AllBearable X P calls (a ++ b) ↔
      AllBearable X P calls a ∧ AllBearable X P (calls + a.length) b := by
  induction a generalizing calls with
  | nil => simp [AllBearable]
  | cons step a ih =>
    rw [List.cons_append, AllBearable, ih, AllBearable, List.length_cons, and_assoc,
      Nat.add_assoc, Nat.add_comm 1]

/-- The buffer of the first read, and the others one place further on. -/
theorem allBearable_cons {X : Externals} {P : Peer} {calls n : Nat} {r : ReadSome}
    {steps : List ReadStep} :
    AllBearable X P calls (⟨n, some r⟩ :: steps) ↔
      Bearable X P (calls + 1) r ∧ AllBearable X P (calls + 1) steps := by
  simp [AllBearable]

theorem not_bearable_of_fault {X : Externals} {P : Peer} {calls : Nat} {r : ReadSome} {f : Fault}
    (hv : r.verdict = .error f) : ¬ Bearable X P calls r := by
  rintro (⟨m, hm, -⟩ | ⟨hm, -⟩)
  · rw [hv] at hm
    cases hm
  · rw [hv] at hm
    cases hm

theorem bearable_of_readNext_iff {X : Externals} {P : Peer} {calls : Nat} {r : ReadSome} {m : Int}
    (hv : r.verdict = .ok (.readNext m)) : Bearable X P calls r ↔ 0 < m ∧ 0 < toInt m := by
  constructor
  · rintro (⟨m', hm', hpos⟩ | ⟨hm', -⟩)
    · rw [hv] at hm'
      cases hm'
      exact hpos
    · rw [hv] at hm'
      cases hm'
  · intro hpos
    exact Or.inl ⟨m, hv, hpos⟩

theorem getDataForWrite_ofString_iff (str beyond : Bytes) :
    (∃ p, (PicoRecord.ofString str).getDataForWrite beyond = .ok p) ↔
      2 < (cString (str ++ beyond)).length := by
  simp only [PicoRecord.getDataForWrite, PicoRecord.ofString, if_true]
  split
  · rename_i h
    simp [h]
  · rename_i h
    simp [h]

/-- A message is answered exactly when its buffer is bearable as a message. -/
theorem reply_ok_iff {X : Externals} {P : Peer} {str : Bytes} {c : Connection} (hne : str ≠ []) :
    (∃ c', reply X P str c = .ok c') ↔
      (∃ m, PicoMessage.ofJson X str = .ok m) ∧
        2 < (cString (str ++ (P.memory c.calls).beyond)).length ∧ P.takes c.calls = true := by
  rw [← getDataForWrite_ofString_iff]
  constructor
  · rintro ⟨c', h⟩
    rcases bind_eq_ok h with ⟨m, hm, h⟩
    have hjson := PicoMessage.ofJson_json hm
    rw [PicoMessage.toString, hjson, if_neg hne] at h
    rcases bind_eq_ok h with ⟨frame, hframe, h⟩
    rw [PicoMessage.ofString_json, hjson] at hframe
    rcases bind_eq_ok hframe with ⟨p, hp, -⟩
    split at h
    · exact ⟨⟨m, hm⟩, ⟨p, hp⟩, by assumption⟩
    · cases h
  · rintro ⟨⟨m, hm⟩, ⟨p, hp⟩, htakes⟩
    have hjson := PicoMessage.ofJson_json hm
    have hstr : m.toString ≠ [] := by rwa [PicoMessage.toString, hjson]
    have hframe : ∃ f, writeOneBuffer P.dangling (P.memory c.calls)
        m.getCompleteMessageInJsonAsOnBuffer = .ok f := by
      rw [PicoMessage.ofString_json, hjson]
      simp only [writeOneBuffer, PicoDB.writeOneBuffer, hp]
      exact ⟨_, rfl⟩
    rcases hframe with ⟨f, hf⟩
    refine ⟨{ c with outgoing := c.outgoing ++ f.bytes }, ?_⟩
    simp only [reply, hm, bind, Except.bind, if_neg hstr, hf, htakes, if_true]

/-- An answer leaves the incoming side alone. -/
theorem reply_frame {X : Externals} {P : Peer} {str : Bytes} {c c' : Connection}
    (h : reply X P str c = .ok c') : c'.incoming = c.incoming ∧ c'.calls = c.calls := by
  rcases bind_eq_ok h with ⟨m, -, h⟩
  split at h
  · cases h
  · rcases bind_eq_ok h with ⟨frame, -, h⟩
    split at h
    · cases h
      exact ⟨rfl, rfl⟩
    · cases h

/-! ## The run -/

section Run

variable {X : Externals} {P : Peer}

/-- What the end of a call says of its buffers. -/
def CallSpec (X : Externals) (P : Peer) (calls : Nat) : List ReadStep × CallEnd Connection → Prop
  | (steps, .waits _) => P.closes = false ∧ AllBearable X P calls steps
  | (steps, .stops _) => ¬ AllBearable X P calls steps
  | (steps, .message str c) =>
    c.calls = calls + steps.length ∧ (AllBearable X P calls steps ↔ ∃ c', reply X P str c = .ok c')
  | (_, .tooDeep) => True

/-- A size that is not positive, as a `long` or as an `int`, stops the session
in the next call. -/
theorem stops_of_not_pos {m : Int} (hm : ¬ (0 < m ∧ 0 < toInt m)) (depth : Nat) (c : Connection) :
    ∃ steps f, readOneBuffer sizeToRead P.readSome (depth + 1) m c = (steps, .stops f) := by
  cases hsize : sizeToRead m with
  | error f => exact ⟨[], f, readOneBuffer_refused hsize⟩
  | ok n =>
    -- the `long` is positive and the `int` is zero: a read of nothing
    rcases sizeToRead_eq_ok hsize with ⟨hpos, hint⟩
    have hzero : n = 0 := by
      by_contra hn
      exact hm ⟨hpos, by omega⟩
    subst hzero
    have hread : P.readSome 0 c = some (⟨0, false, []⟩, { c with calls := c.calls + 1 }) := rfl
    exact ⟨_, _, readOneBuffer_fault hsize hread (ReadSome.verdict_empty rfl)⟩

/-- Step lemma: one call, from a size that is read. -/
theorem callSpec (depth : Nat) {d : Int} (hd : 0 < d) (hd' : 0 < toInt d) (c : Connection) :
    CallSpec X P c.calls (readOneBuffer sizeToRead P.readSome depth d c) := by
  induction depth generalizing d c with
  | zero => trivial
  | succ depth ih =>
    cases callCases sizeToRead P.readSome d c with
    | refused hsize =>
      rw [sizeToRead_of_pos hd (le_of_lt hd')] at hsize
      cases hsize
    | waits hsize hread =>
      rw [readOneBuffer_waits hsize hread]
      exact ⟨(P.readSome_eq_none hread).2.1, by simp [AllBearable]⟩
    | fault hsize hread hv =>
      rw [readOneBuffer_fault hsize hread hv]
      exact fun h => not_bearable_of_fault hv (allBearable_cons.mp h).1
    | message hsize hread hv =>
      have hframe := P.readSome_frame hread
      rcases ReadSome.message_of_verdict hv with ⟨rfl, hne⟩
      rw [readOneBuffer_message hsize hread hv]
      refine ⟨by simpa using hframe.1, ?_⟩
      rw [reply_ok_iff hne, hframe.1]
      simp [AllBearable, Bearable, hv]
    | @readNext n r c' m hsize hread hv =>
      have hframe := P.readSome_frame hread
      rw [readOneBuffer_readNext hsize hread hv]
      by_cases hm : 0 < m ∧ 0 < toInt m
      · -- a bearable size: what the inner call says, one place further on
        have hnext := ih hm.1 hm.2 c'
        rw [hframe.1] at hnext
        rcases hcall : readOneBuffer sizeToRead P.readSome depth m c' with ⟨steps, ending⟩
        rw [hcall] at hnext
        have hall : AllBearable X P c.calls (⟨n, some r⟩ :: steps) ↔
            AllBearable X P (c.calls + 1) steps := by
          rw [allBearable_cons]
          exact and_iff_right ((bearable_of_readNext_iff hv).mpr hm)
        cases ending with
        | waits c'' => exact ⟨hnext.1, hall.mpr hnext.2⟩
        | stops f => exact fun h => hnext (hall.mp h)
        | message str c'' =>
          have hcalls : c''.calls = c.calls + 1 + steps.length := hnext.1
          refine ⟨?_, hall.trans hnext.2⟩
          show c''.calls = c.calls + (steps.length + 1)
          omega
        | tooDeep => trivial
      · -- any other size stops the inner call, if there is one
        cases depth with
        | zero => trivial
        | succ depth =>
          rcases stops_of_not_pos (P := P) hm depth c' with ⟨steps, f, hcall⟩
          rw [hcall]
          exact fun h => hm ((bearable_of_readNext_iff hv).mp (allBearable_cons.mp h).1)

/-- What the end of a run says of its buffers. -/
def RunSpec (X : Externals) (P : Peer) (calls : Nat) (steps : List ReadStep) :
    LoopEnd Connection → Prop
  | .waits _ => P.closes = false ∧ AllBearable X P calls steps
  | .stops _ => ¬ AllBearable X P calls steps
  | .returned _ => True
  | .tooDeep => True

/-- Run lemma. -/
theorem runSpec (depth calls : Nat) (c : Connection) :
    RunSpec X P c.calls (readCalls sizeToRead P.readSome (reply X P) depth calls c).steps
      (readCalls sizeToRead P.readSome (reply X P) depth calls c).ending := by
  induction calls generalizing c with
  | zero => trivial
  | succ calls ih =>
    have hten : toInt 10 = 10 := toInt_of_mem (by norm_num) (by norm_num)
    have hcall := callSpec (X := X) (P := P) depth (d := 10) (by norm_num) (by omega) c
    rcases hone : readOneBuffer sizeToRead P.readSome depth 10 c with ⟨steps, ending⟩
    rw [hone] at hcall
    cases ending with
    | waits c' =>
      simp only [readCalls, hone]
      exact hcall
    | stops f =>
      simp only [readCalls, hone]
      exact hcall
    | tooDeep =>
      simp only [readCalls, hone]
      trivial
    | message str c' =>
      rw [readCalls_message _ _ hone]
      cases hreply : reply X P str c' with
      | error f =>
        intro h
        rcases hcall.2.mp h with ⟨c'', hc''⟩
        rw [hreply] at hc''
        cases hc''
      | ok c'' =>
        have hsteps : AllBearable X P c.calls steps := hcall.2.mpr ⟨c'', hreply⟩
        have hnext := ih c''
        have hall : ∀ more, AllBearable X P c.calls (steps ++ more) ↔
            AllBearable X P c''.calls more := by
          intro more
          rw [allBearable_append, (reply_frame hreply).2, hcall.1]
          exact and_iff_right hsteps
        dsimp only
        cases hend : (readCalls sizeToRead P.readSome (reply X P) depth calls c'').ending with
        | waits c₃ =>
          rw [hend] at hnext
          exact ⟨hnext.1, (hall _).mpr hnext.2⟩
        | stops f =>
          rw [hend] at hnext
          exact fun h => hnext ((hall _).mp h)
        | returned c₃ => trivial
        | tooDeep => trivial

end Run

/-- **What a session outlives.** Given as many messages and nested reads as
there are bytes, and one more, a session is still there, or properly gone,
exactly when the client has not closed and has sent bearable buffers only. -/
theorem session_survives_iff (X : Externals) (P : Peer) (sent : Bytes) {fuel : Nat}
    (hfuel : sent.length < fuel) :
    (start X P fuel sent = .waits ∨ start X P fuel sent = .ended) ↔
      P.closes = false ∧ AllBearable X P 0 (transcript X P fuel sent).steps := by
  have hspec := runSpec (X := X) (P := P) fuel fuel { incoming := sent }
  unfold start transcript
  constructor
  · intro h
    cases hend : (readCalls sizeToRead P.readSome (reply X P) fuel fuel
        { incoming := sent }).ending with
    | waits c =>
      rw [hend] at hspec
      exact hspec
    | stops f =>
      rw [hend] at h
      cases f with
      | assertion a => simp [finish] at h
      | exception e => simp [finish] at h
    | returned c =>
      rw [hend] at h
      simp [finish] at h
    | tooDeep =>
      rw [hend] at h
      simp [finish] at h
  · rintro ⟨hopen, hall⟩
    have hkeeps : ∀ str c c', reply X P str c = .ok c' →
        c'.incoming.length ≤ c.incoming.length :=
      fun str c c' h => le_of_eq (congrArg List.length (reply_frame h).1)
    have hends := readCalls_consuming (P.readSome_consuming hopen) sizeToRead hkeeps fuel fuel
      { incoming := sent } hfuel hfuel
    rcases hends with ⟨c, hc⟩ | ⟨f, hf⟩
    · rw [hc]
      exact Or.inl rfl
    · rw [hf] at hspec
      exact absurd hall hspec

/-- A client that sends an empty object and waits for its reply. -/
theorem session_survives_empty_object :
    let X : Externals :=
      { parse := fun s => if s = ascii "\x7b\x7d\n" then some (.objectValue []) else none,
        stdHash := fun _ => 0 }
    let sent := ascii "####3" ++ [0, 0, 0, 0, 0] ++ ascii "\x7b\x7d\n"
    (start X (Peer.quiet false fun _ => 10) 14 sent = .waits ∨
        start X (Peer.quiet false fun _ => 10) 14 sent = .ended) ↔
      (Peer.quiet false fun _ => 10).closes = false ∧
        AllBearable X (Peer.quiet false fun _ => 10) 0
          (transcript X (Peer.quiet false fun _ => 10) 14 sent).steps :=
  session_survives_iff _ _ _ (by decide)

/-- A size of zero, no input at all, and a size that is no number: three
assertions fail, the last one in the destructor. -/
theorem session_aborts :
    let X : Externals := { parse := fun _ => none, stdHash := fun _ => 0 }
    let P := Peer.quiet true fun _ => 10
    start X P 11 (ascii "####0" ++ [0, 0, 0, 0, 0]) = .aborts .dataSizeToReadNext ∧
      start X P 1 [] = .aborts .parsingSuccessful ∧
      start X P 11 (ascii "####x" ++ [0, 0, 0, 0, 0]) = .aborts .shutDownNormally := by
  decide

end Session

end PicoDB
