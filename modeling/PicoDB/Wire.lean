import PicoDB.Connection
import PicoDB.Exchange

/-!
# PicoDB.Wire — the system over streams of bytes

In `PicoDB.System` a frame is written in one step and read in one step. Here
`writeOneMessageToOtherSide` writes the header and then the body, each call of
`readOneBuffer` is one `read_some`, of the ten header bytes or of as many bytes
as were announced, and what was written arrives in pieces of any size. Reads and
writes are those of `PicoDB.Connection`; the environment of each step is its own.

`core` is the system of frames: it moves when a header is written and when a
body was read, and its two channels of frames are history here, read by nobody.

* `driverStep_moves`, `sessionStep_moves`: what a step of a loop can do.
* `inv_of_run`: `core` goes through the states of `system`, and the bytes between
  the two sides are those of its frames.
-/

namespace PicoDB.Wire

open ConcurrentVector Lts LockStep

/-! ## Streams -/

/-- One direction of the connection: the bytes that can be read, and those that
are under way. -/
structure Stream where
  arrived : Bytes := []
  underWay : Bytes := []
deriving DecidableEq, Repr

namespace Stream

/-- `boost::asio::write`. -/
def write (bytes : Bytes) (c : Stream) : Stream := { c with underWay := c.underWay ++ bytes }

/-- Up to `k` bytes arrive. -/
def arrive (k : Nat) (c : Stream) : Stream where
  arrived := c.arrived ++ c.underWay.take k
  underWay := c.underWay.drop k

end Stream

/-- Where a loop is in a write or in `readOneBuffer`. -/
inductive Io where
  | start
  /-- the header is written, the body is not -/
  | sending (body : Bytes)
  /-- in the call that the size info made -/
  | next (nextDataSize : Int)
deriving DecidableEq, Repr

/-- `dataSizeToReadNext` of the call that is made. -/
def Io.dataSizeToReadNext : Io → Int
  | next nextDataSize => nextDataSize
  | _ => 10

/-- The loop is between the two writes of a frame. -/
def Io.isSending : Io → Bool
  | sending _ => true
  | _ => false

/-- How a call of `readOneBuffer` goes on after its `read_some`. -/
inductive Got where
  | waits
  | stops
  | size (nextDataSize : Int) (rest : Bytes)
  | message (str : Bytes) (msg : PicoMessage) (rest : Bytes)
deriving DecidableEq

/-- A call of `readOneBuffer`, up to the one it makes. -/
def readBuffer (X : Externals) (sizeToRead : Int → Except Fault Nat) (P : Peer) (io : Io)
    (arrived : Bytes) : Got :=
  match sizeToRead io.dataSizeToReadNext with
  | .error _ => .stops
  | .ok n =>
    match P.readSome n { incoming := arrived } with
    | none => .waits
    | some (r, c) =>
      match r.verdict with
      | .error _ => .stops
      | .ok (.readNext nextDataSize) => .size nextDataSize c.incoming
      | .ok (.message str) =>
        match PicoMessage.ofJson X str with
        | .error _ => .stops
        | .ok msg => .message str msg c.incoming

/-! ## The system -/

/-- The system with its connection. -/
structure State (T : Type) where
  core : PicoDB.State T := {}
  toSession : Stream := {}
  toDriver : Stream := {}
  driverIo : Io := .start
  sessionIo : Io := .start

section Steps

variable {T : Type}

/-- A step of the driver's loop, in the environment `P`. -/
def driverStep (X : Externals) (P : Peer) (s : State T) : State T :=
  match s.core.driver with
  | .reading =>
    match s.driverIo with
    | .sending body =>
      if P.takes 0 then { s with toSession := s.toSession.write body, driverIo := .start }
      else { s with core := { s.core with driver := .halted } }
    | io =>
      match readBuffer X Driver.sizeToRead P io s.toDriver.arrived with
      | .waits => s
      | .stops => { s with core := { s.core with driver := .halted } }
      | .size nextDataSize rest =>
        { s with toDriver := { s.toDriver with arrived := rest }, driverIo := .next nextDataSize }
      | .message str msg rest =>
        { s with
          core := { s.core with
            toDriver := s.core.toDriver.tail, driver := .queueing ⟨s.core.fresh, msg⟩,
            fresh := s.core.fresh + 1, replies := s.core.replies ++ [str] }
          toDriver := { s.toDriver with arrived := rest }
          driverIo := .start }
  | .writing r =>
    match Driver.writeOneBuffer (P.memory 0) r.val with
    | .ok f =>
      if P.takes 0 then
        { s with
          core := PicoDB.driverStep X (P.memory 0) s.core
          toSession := s.toSession.write f.header
          driverIo := .sending f.body }
      else { s with core := { s.core with driver := .halted } }
    | .error _ => { s with core := { s.core with driver := .halted } }
  | _ => { s with core := PicoDB.driverStep X (P.memory 0) s.core }

/-- A step of the session's loop. -/
def sessionStep (X : Externals) (P : Peer) (s : State T) : State T :=
  match s.core.session with
  | .reading =>
    match s.sessionIo with
    | .sending body =>
      if P.takes 0 then { s with toDriver := s.toDriver.write body, sessionIo := .start }
      else { s with core := { s.core with session := .halted } }
    | io =>
      match readBuffer X Session.sizeToRead P io s.toSession.arrived with
      | .waits => s
      | .stops => { s with core := { s.core with session := .halted } }
      | .size nextDataSize rest =>
        { s with
          toSession := { s.toSession with arrived := rest }, sessionIo := .next nextDataSize }
      | .message _ msg rest =>
        { s with
          core := { s.core with toSession := s.core.toSession.tail, session := .queueing msg }
          toSession := { s.toSession with arrived := rest }
          sessionIo := .start }
  | .writing r =>
    match Session.writeOneBuffer P.dangling (P.memory 0) r with
    | .ok f =>
      if P.takes 0 then
        { s with
          core := PicoDB.sessionStep X P.dangling (P.memory 0) s.core
          toDriver := s.toDriver.write f.header
          sessionIo := .sending f.body }
      else { s with core := { s.core with session := .halted } }
    | .error _ => { s with core := { s.core with session := .halted } }
  | _ => { s with core := PicoDB.sessionStep X P.dangling (P.memory 0) s.core }

end Steps

/-- The `read_some` of a call comes back full, if it comes back. -/
def IsFull (sizeToRead : Int → Except Fault Nat) (P : Peer) (io : Io) (arrived : Bytes) : Prop :=
  ∀ n, sizeToRead io.dataSizeToReadNext = .ok n →
    ReadStep.Whole ⟨n, (P.readSome n { incoming := arrived }).map Prod.fst⟩

instance (sizeToRead : Int → Except Fault Nat) (P : Peer) (io : Io) (arrived : Bytes) :
    Decidable (IsFull sizeToRead P io arrived) :=
  match h : sizeToRead io.dataSizeToReadNext with
  | .error _ => .isTrue fun n hn => by rw [h] at hn; cases hn
  | .ok n =>
    decidable_of_iff (ReadStep.Whole ⟨n, (P.readSome n { incoming := arrived }).map Prod.fst⟩)
      ⟨fun hw n' hn' => by rw [h] at hn'; cases hn'; exact hw, fun hw => hw n h⟩

/-- The loop is in a `read_some` that does not come back. -/
def Waits (X : Externals) (sizeToRead : Int → Except Fault Nat) (P : Peer) (io : Io)
    (arrived : Bytes) : Prop :=
  io.isSending = false ∧ readBuffer X sizeToRead P io arrived = .waits

instance (X : Externals) (sizeToRead : Int → Except Fault Nat) (P : Peer) (io : Io)
    (arrived : Bytes) : Decidable (Waits X sizeToRead P io arrived) :=
  inferInstanceAs (Decidable (_ ∧ _))

/-- What can happen next. -/
inductive Label (T : Type) where
  | issue (t : T) (a : FieldArgs) (draw : Fin 32 → Nat) (t1 t2 userTimeOut : Int)
  | caller (t : T) (locked : Bool)
  | driver (P : Peer)
  | session (P : Peer)
  /-- up to `k` bytes arrive at the session -/
  | toSession (k : Nat)
  /-- up to `k` bytes arrive at the driver -/
  | toDriver (k : Nat)

/-- The system: nothing is issued and nothing is sent at first. -/
def wire (X : Externals) (T : Type) [DecidableEq T] : Lts.System (State T) (Label T) where
  Init s := s = {}
  guard
    | .issue t a draw t1 t2 u, s => (system X T).guard (.issue t a draw t1 t2 u) s.core
    | .caller t locked, s => (system X T).guard (.caller t locked) s.core
    | .driver P, s => s.core.driver ≠ .halted ∧ (s.core.driver = .reading →
        ¬ Waits X Driver.sizeToRead P s.driverIo s.toDriver.arrived)
    | .session P, s => s.core.session ≠ .halted ∧ (s.core.session = .reading →
        ¬ Waits X Session.sizeToRead P s.sessionIo s.toSession.arrived)
    | .toSession _, _ => True
    | .toDriver _, _ => True
  update
    | .issue t a draw t1 t2 u, s =>
      { s with core := (system X T).update (.issue t a draw t1 t2 u) s.core }
    | .caller t locked, s => { s with core := (system X T).update (.caller t locked) s.core }
    | .driver P, s => driverStep X P s
    | .session P, s => sessionStep X P s
    | .toSession k, s => { s with toSession := s.toSession.arrive k }
    | .toDriver k, s => { s with toDriver := s.toDriver.arrive k }

instance (X : Externals) (T : Type) [DecidableEq T] (l : Label T) (s : State T) :
    Decidable ((wire X T).guard l s) :=
  match l with
  | .issue t a draw t1 t2 u =>
    inferInstanceAs (Decidable ((system X T).guard (.issue t a draw t1 t2 u) s.core))
  | .caller t locked => inferInstanceAs (Decidable ((system X T).guard (.caller t locked) s.core))
  | .driver P => inferInstanceAs (Decidable (s.core.driver ≠ .halted ∧
      (s.core.driver = .reading → ¬ Waits X Driver.sizeToRead P s.driverIo s.toDriver.arrived)))
  | .session P => inferInstanceAs (Decidable (s.core.session ≠ .halted ∧
      (s.core.session = .reading → ¬ Waits X Session.sizeToRead P s.sessionIo s.toSession.arrived)))
  | .toSession _ => inferInstanceAs (Decidable True)
  | .toDriver _ => inferInstanceAs (Decidable True)

/-- The environment takes what is written, and gives a read all it asks for. -/
def Served {T : Type} (s : State T) : Label T → Prop
  | .driver P => P.takes 0 = true ∧ (s.core.driver = .reading →
      IsFull Driver.sizeToRead P s.driverIo s.toDriver.arrived)
  | .session P => P.takes 0 = true ∧ (s.core.session = .reading →
      IsFull Session.sizeToRead P s.sessionIo s.toSession.arrived)
  | _ => True

instance {T : Type} (s : State T) (l : Label T) : Decidable (Served s l) :=
  match l with
  | .issue _ _ _ _ _ _ => inferInstanceAs (Decidable True)
  | .caller _ _ => inferInstanceAs (Decidable True)
  | .driver P => inferInstanceAs (Decidable (P.takes 0 = true ∧ (s.core.driver = .reading →
      IsFull Driver.sizeToRead P s.driverIo s.toDriver.arrived)))
  | .session P => inferInstanceAs (Decidable (P.takes 0 = true ∧ (s.core.session = .reading →
      IsFull Session.sizeToRead P s.sessionIo s.toSession.arrived)))
  | .toSession _ => inferInstanceAs (Decidable True)
  | .toDriver _ => inferInstanceAs (Decidable True)

/-- The session finds the text of the size where it was. -/
def Label.StatesSizes {T : Type} : Label T → Prop
  | .session P => ∀ n, cString (P.dangling n) = convertToString n
  | _ => True

/-- What is asked of a step. -/
structure Intact {T : Type} (s : State T) (l : Label T) : Prop where
  served : Served s l
  sizes : l.StatesSizes

/-! ## The bytes of a direction are those of its frames -/

/-- What a loop has left to write. -/
def Io.unsent : Io → Bytes
  | sending body => body
  | _ => []

/-- The header announces the body. -/
structure Announced (f : Frame) : Prop where
  length : f.header.length = 10
  verdict : ReadSome.verdict ⟨10, false, f.header⟩ = .ok (.readNext f.body.length)
  pos : 0 < f.body.length
  le : f.body.length ≤ 999999

/-- What the reader has in front of it, when `frames` are not read yet: the
reader may have the first header behind it. -/
def Unread (io : Io) (bytes : Bytes) (frames : List Frame) : Prop :=
  match io with
  | .next nextDataSize => ∃ f rest, frames = f :: rest ∧ nextDataSize = f.body.length ∧
      bytes = f.body ++ rest.flatMap Frame.bytes
  | _ => bytes = frames.flatMap Frame.bytes

/-- One direction: `reader` and `writer` are where its two loops are. -/
structure Carried (reader writer : Io) (c : Stream) (frames : List Frame) : Prop where
  announced : ∀ f ∈ frames, Announced f
  bytes : Unread reader (c.arrived ++ c.underWay ++ writer.unsent) frames

theorem Unread.append {io : Io} {bytes : Bytes} {frames : List Frame} (h : Unread io bytes frames)
    (f : Frame) : Unread io (bytes ++ f.bytes) (frames ++ [f]) := by
  cases io with
  | next d =>
    obtain ⟨g, rest, rfl, hd, rfl⟩ := h
    exact ⟨g, rest ++ [f], rfl, hd, by simp⟩
  | start =>
    have hbytes : bytes = _ := h
    rw [hbytes]
    simp [Unread]
  | sending body =>
    have hbytes : bytes = _ := h
    rw [hbytes]
    simp [Unread]

section Directions

variable {reader writer : Io} {c : Stream} {frames : List Frame}

theorem Carried.arrive (h : Carried reader writer c frames) (k : Nat) :
    Carried reader writer (c.arrive k) frames := by
  refine ⟨h.announced, ?_⟩
  have hbytes : (c.arrive k).arrived ++ (c.arrive k).underWay = c.arrived ++ c.underWay := by
    rw [Stream.arrive, List.append_assoc, List.take_append_drop]
  rw [hbytes]
  exact h.bytes

/-- The header of a frame is written. -/
theorem Carried.writeHeader (h : Carried reader .start c frames) {f : Frame} (hf : Announced f) :
    Carried reader (.sending f.body) (c.write f.header) (frames ++ [f]) := by
  refine ⟨List.forall_mem_append.mpr ⟨h.announced, List.forall_mem_singleton.mpr hf⟩, ?_⟩
  have happend := h.bytes.append f
  simpa [Stream.write, Io.unsent, Frame.bytes] using happend

/-- The body of a frame is written. -/
theorem Carried.writeBody {body : Bytes} (h : Carried reader (.sending body) c frames) :
    Carried reader .start (c.write body) frames := by
  refine ⟨h.announced, ?_⟩
  have hbytes := h.bytes
  simpa [Stream.write, Io.unsent] using hbytes

/-- A reader that is about to read a header has all frames in front of it. -/
theorem Carried.reader_sending {body : Bytes} (h : Carried (.sending body) writer c frames) :
    Carried .start writer c frames := ⟨h.announced, h.bytes⟩

theorem Carried.to_sending {body : Bytes} (h : Carried .start writer c frames) :
    Carried (.sending body) writer c frames := ⟨h.announced, h.bytes⟩

end Directions

/-! ## One read -/

section Reads

variable {X : Externals} {sizeToRead : Int → Except Fault Nat} {P : Peer} {io : Io}
  {writer : Io} {c : Stream} {frames : List Frame}

/-- A full read takes what it asks for off the front. -/
theorem readSome_of_isFull (hfull : IsFull sizeToRead P io c.arrived) {n : Nat}
    (hsize : sizeToRead io.dataSizeToReadNext = .ok n) :
    P.readSome n { incoming := c.arrived } = none ∨
      ∃ c', P.readSome n { incoming := c.arrived } =
          some (⟨n, false, c.arrived.take n⟩, c') ∧
        n ≤ c.arrived.length ∧ c'.incoming = c.arrived.drop n := by
  cases hread : P.readSome n { incoming := c.arrived } with
  | none => exact Or.inl rfl
  | some p =>
    obtain ⟨r, c'⟩ := p
    have hwhole := hfull n hsize r (by rw [hread]; rfl)
    have hstream := P.readSome_whole hread hwhole.1 hwhole.2
    unfold wholeReads at hstream
    split at hstream
    · rename_i hle
      obtain ⟨hr, hrest⟩ := Prod.mk.inj (Option.some.inj hstream)
      exact Or.inr ⟨c', by rw [hr], hle, hrest.symm⟩
    · cases hstream

/-- The first bytes of what a reader has in front of it, once they are there. -/
theorem take_arrived {more front rest : Bytes} (h : c.arrived ++ more = front ++ rest)
    (hle : front.length ≤ c.arrived.length) :
    c.arrived.take front.length = front ∧ c.arrived.drop front.length ++ more = rest := by
  have htake := congrArg (List.take front.length) h
  have hdrop := congrArg (List.drop front.length) h
  rw [List.take_append_of_le_length hle, List.take_left] at htake
  rw [List.drop_append_of_le_length hle, List.drop_left] at hdrop
  exact ⟨htake, hdrop⟩

/-- Step lemma: the header of the next frame. -/
theorem readBuffer_header (hsize : Faithful sizeToRead) (h : Carried .start writer c frames)
    (hfull : IsFull sizeToRead P .start c.arrived)
    (hwaits : readBuffer X sizeToRead P .start c.arrived ≠ .waits) :
    ∃ d, readBuffer X sizeToRead P .start c.arrived = .size d (c.arrived.drop 10) ∧
      Carried (.next d) writer { c with arrived := c.arrived.drop 10 } frames := by
  have hten : sizeToRead Io.start.dataSizeToReadNext = .ok 10 :=
    hsize 10 (by norm_num) (by norm_num)
  rcases readSome_of_isFull hfull hten with hnone | ⟨c', hread, hle, hrest⟩
  · refine absurd ?_ hwaits
    simp only [readBuffer, hten, hnone]
  · have hbytes : c.arrived ++ c.underWay ++ writer.unsent = frames.flatMap Frame.bytes := h.bytes
    cases frames with
    | nil =>
      have hnil := congrArg List.length hbytes
      simp only [List.length_append, List.flatMap_nil, List.length_nil] at hnil
      omega
    | cons f rest =>
      have hf := h.announced f List.mem_cons_self
      have hfront : c.arrived ++ (c.underWay ++ writer.unsent) =
          f.header ++ (f.body ++ rest.flatMap Frame.bytes) := by
        rw [← List.append_assoc, hbytes, List.flatMap_cons, Frame.bytes, List.append_assoc]
      obtain ⟨htake, hdrop⟩ := take_arrived hfront (by rw [hf.length]; exact hle)
      rw [hf.length] at htake hdrop
      refine ⟨f.body.length, ?_, h.announced, f, rest, rfl, rfl, ?_⟩
      · rw [htake] at hread
        simp only [readBuffer, hten, hread, hf.verdict, hrest]
      · rw [← hdrop]
        simp only [List.append_assoc]

theorem receive_eq_ok {body : Bytes} {msg : PicoMessage} (h : receive X body = .ok (some msg)) :
    ReadSome.verdict ⟨body.length, false, body⟩ = .ok (.message body) ∧
      PicoMessage.ofJson X body = .ok msg := by
  rcases bind_eq_ok h with ⟨v, hv, h⟩
  cases v with
  | readNext n => cases h
  | message str =>
    rcases map_eq_ok h with ⟨m, hm, heq⟩
    cases heq
    have hv' : ReadSome.verdict ⟨body.length, false, body⟩ = .ok (.message str) := hv
    have hstr := (ReadSome.message_of_verdict hv').1
    rw [hstr] at hv' hm
    exact ⟨hv', hm⟩

/-- Step lemma: the body of the next frame. -/
theorem readBuffer_body {d : Int} (hsize : Faithful sizeToRead)
    (h : Carried (.next d) writer c frames) (hfull : IsFull sizeToRead P (.next d) c.arrived)
    (hwaits : readBuffer X sizeToRead P (.next d) c.arrived ≠ .waits)
    (hclean : ∀ f ∈ frames, Clean X f.body) :
    ∃ f rest msg tail, frames = f :: rest ∧ receive X f.body = .ok (some msg) ∧
      readBuffer X sizeToRead P (.next d) c.arrived = .message f.body msg tail ∧
      Carried .start writer { c with arrived := tail } rest := by
  obtain ⟨f, rest, rfl, rfl, hbytes⟩ := h.bytes
  have hf := h.announced f List.mem_cons_self
  obtain ⟨msg, hmsg⟩ := hclean f List.mem_cons_self
  have hlen : sizeToRead (Io.next f.body.length).dataSizeToReadNext = .ok f.body.length :=
    hsize f.body.length hf.pos (Nat.lt_of_le_of_lt hf.le (by norm_num))
  rcases readSome_of_isFull hfull hlen with hnone | ⟨c', hread, hle, hrest⟩
  · refine absurd ?_ hwaits
    simp only [readBuffer, hlen, hnone]
  · obtain ⟨htake, hdrop⟩ := take_arrived (by rw [← List.append_assoc]; exact hbytes) hle
    obtain ⟨hverdict, hjson⟩ := receive_eq_ok hmsg
    refine ⟨f, rest, msg, c'.incoming, rfl, hmsg, ?_,
      fun g hg => h.announced g (List.mem_cons_of_mem f hg), ?_⟩
    · rw [htake] at hread
      simp only [readBuffer, hlen, hread, hverdict, hjson]
    · change c'.incoming ++ c.underWay ++ writer.unsent = rest.flatMap Frame.bytes
      rw [← hdrop, hrest, List.append_assoc]

end Reads

/-! ## What is written -/

/-- The text of every request fits a header, and is recognised. -/
def Fit {T : Type} (X : Externals) (s : PicoDB.State T) : Prop :=
  ∀ m ∈ s.issued, Clean X m.json_form_of_message ∧ m.json_form_of_message.length ≤ 999999

section Writes

variable {T : Type} {X : Externals}

theorem announced_of_write {text : Nat → Bytes} (htext : ∀ n, text n = convertToString n)
    {M : Memory} {b : Bytes} {f : Frame} (h0 : (0 : Byte) ∉ b) (hpos : 0 < b.length)
    (hle : b.length ≤ 999999) (hf : writeOneBuffer text M (.ofString b) = .ok f) : Announced f := by
  have hheader : f.header = header (convertToString b.length) M.pad := by
    rw [writeOneBuffer_header hf, htext, PicoRecord.ofString_getSize]
  have hbody := writeOneBuffer_body h0 hf
  refine ⟨by rw [hheader, header_length], ?_, by rw [hbody]; exact hpos, by rw [hbody]; exact hle⟩
  rw [hbody]
  exact decode_header_of_lt (by omega) M.pad hheader

/-- Step lemma: a loop that is at its write has a record of a request there. -/
theorem announced_of_inv {s : PicoDB.State T} (h : LockStep.Inv X s) (hfit : Fit X s)
    {text : Nat → Bytes} (htext : ∀ n, text n = convertToString n) (M : Memory) {r : PicoRecord}
    (hr : (∃ addr, s.driver = .writing ⟨addr, r⟩) ∨ s.session = .writing r) :
    ∃ f, writeOneBuffer text M r = .ok f ∧ Announced f := by
  obtain ⟨k, hat, hcarry, hreq⟩ := h
  have hbody : ∀ b, IsBody s b → r = .ofString b →
      ∃ f, writeOneBuffer text M r = .ok f ∧ Announced f := by
    rintro b hb rfl
    have hzero := zero_notMem_of_isBody hreq hb
    obtain ⟨m, hm, hjson⟩ := hb
    rcases writeOneBuffer_of_fields text M hzero.1 hzero.2 with ⟨f, hf, -⟩
    exact ⟨f, hf, announced_of_write htext hzero.1 (by omega) (hjson ▸ (hfit m hm).2) hf⟩
  rcases hr with ⟨addr, hd⟩ | hs
  · cases k with
    | taken b =>
      obtain ⟨⟨addr', hd'⟩, -⟩ := hat
      rw [hd] at hd'
      cases hd'
      exact hbody b (hcarry b (by simp [Token.bodies])) rfl
    | _ => simp [At, hd] at hat
  · cases k with
    | popped b =>
      obtain ⟨-, hs', -⟩ := hat
      rw [hs] at hs'
      cases hs'
      exact hbody b (hcarry b (by simp [Token.bodies])) rfl
    | _ => simp [At, hs] at hat

/-- The frames between the two loops are recognised. -/
theorem clean_of_inv {s : PicoDB.State T} (h : LockStep.Inv X s) (hfit : Fit X s) :
    (∀ f ∈ s.toSession, Clean X f.body) ∧ ∀ f ∈ s.toDriver, Clean X f.body := by
  obtain ⟨k, hat, hcarry, -⟩ := h
  have hclean : ∀ f : Frame, f.body ∈ k.bodies → Clean X f.body := fun f hf =>
    clean_of_isBody (fun m hm => (hfit m hm).1) (hcarry f.body hf)
  have hnone : s.toSession = [] → s.toDriver = [] →
      (∀ f ∈ s.toSession, Clean X f.body) ∧ ∀ f ∈ s.toDriver, Clean X f.body := by
    intro hto hback
    simp [hto, hback]
  cases k with
  | sent b =>
    obtain ⟨-, -, ⟨f, rfl, hto, -, hback⟩, -⟩ := hat
    simp [hto, hback, hclean f (by simp [Token.bodies])]
  | answered b =>
    obtain ⟨-, -, ⟨f, rfl, hto, -, hback⟩, -⟩ := hat
    simp [hto, hback, hclean f (by simp [Token.bodies])]
  | home => exact hnone hat.2.2.1.1 hat.2.2.1.2.2
  | taken b => exact hnone hat.2.2.1.1 hat.2.2.1.2.2
  | parsed b => exact hnone hat.2.2.1.1 hat.2.2.1.2.2
  | queued b => exact hnone hat.2.2.1.1 hat.2.2.1.2.2
  | popped b => exact hnone hat.2.2.1.1 hat.2.2.1.2.2
  | arrived b => exact hnone hat.2.2.1.1 hat.2.2.1.2.2

end Writes

/-! ## The invariant -/

variable {T : Type} {X : Externals}

/-- Away from its read and its write, the driver leaves the channels alone. -/
theorem driverStep_channels {s : PicoDB.State T} (M : Memory) (hread : s.driver ≠ .reading)
    (hwrite : ∀ r, s.driver ≠ .writing r) :
    (PicoDB.driverStep X M s).toSession = s.toSession ∧
      (PicoDB.driverStep X M s).toDriver = s.toDriver ∧
      (PicoDB.driverStep X M s).session = s.session := by
  unfold PicoDB.driverStep
  split
  · exact ⟨rfl, rfl, rfl⟩
  · exact ⟨rfl, rfl, rfl⟩
  · split
    · exact ⟨rfl, rfl, rfl⟩
    · exact ⟨rfl, rfl, rfl⟩
  · rename_i r hd
    exact absurd hd (hwrite r)
  · rename_i hd
    exact absurd hd hread
  · exact ⟨rfl, rfl, rfl⟩
  · exact ⟨rfl, rfl, rfl⟩

theorem sessionStep_channels {s : PicoDB.State T} (dangling : Nat → Bytes) (M : Memory)
    (hread : s.session ≠ .reading) (hwrite : ∀ r, s.session ≠ .writing r) :
    (PicoDB.sessionStep X dangling M s).toSession = s.toSession ∧
      (PicoDB.sessionStep X dangling M s).toDriver = s.toDriver ∧
      (PicoDB.sessionStep X dangling M s).driver = s.driver := by
  unfold PicoDB.sessionStep
  split
  · rename_i hs
    exact absurd hs hread
  · exact ⟨rfl, rfl, rfl⟩
  · exact ⟨rfl, rfl, rfl⟩
  · exact ⟨rfl, rfl, rfl⟩
  · split
    · exact ⟨rfl, rfl, rfl⟩
    · exact ⟨rfl, rfl, rfl⟩
  · rename_i r hs
    exact absurd hs (hwrite r)
  · exact ⟨rfl, rfl, rfl⟩

variable [DecidableEq T]

/-- A loop is in the middle of a read or write only when `core` has it at its
read, and then what it has left to write is not empty. -/
def AtRead (io : Io) (reading : Prop) : Prop :=
  (io ≠ .start → reading) ∧ ∀ body, io = .sending body → body ≠ []

theorem atRead_start (reading : Prop) : AtRead .start reading :=
  ⟨fun hne => absurd rfl hne, fun _ hbody => by cases hbody⟩

theorem atRead_next {reading : Prop} (d : Int) (h : reading) : AtRead (.next d) reading :=
  ⟨fun _ => h, fun _ hbody => by cases hbody⟩

theorem AtRead.mono {io : Io} {reading reading' : Prop} (h : AtRead io reading)
    (himp : reading → reading') : AtRead io reading' :=
  ⟨fun hne => himp (h.1 hne), h.2⟩

theorem Announced.atRead {f : Frame} (h : Announced f) {reading : Prop} (hread : reading) :
    AtRead (.sending f.body) reading := by
  refine ⟨fun _ => hread, fun body hbody => ?_⟩
  cases hbody
  exact List.ne_nil_of_length_pos h.pos

/-- The frames of `core` are on the wire, and `core` is where it would get by
itself. -/
structure Inv (X : Externals) (s : State T) : Prop where
  reachable : Reachable (system X T) s.core
  toSession : Carried s.sessionIo s.driverIo s.toSession s.core.toSession
  toDriver : Carried s.driverIo s.sessionIo s.toDriver s.core.toDriver
  driverIo : AtRead s.driverIo (s.core.driver = .reading)
  sessionIo : AtRead s.sessionIo (s.core.session = .reading)

theorem Inv.lockStep {s : State T} (h : Inv X s) (hfit : Fit X s.core) : LockStep.Inv X s.core :=
  safety h.reachable fun m hm => (hfit m hm).1

/-- A step of `core` that leaves its channels alone, with no loop in the middle
of anything. -/
theorem Inv.core {s : State T} (h : Inv X s) (l : PicoDB.Label T) (hg : (system X T).guard l s.core)
    (hto : ((system X T).update l s.core).toSession = s.core.toSession)
    (hback : ((system X T).update l s.core).toDriver = s.core.toDriver)
    (hd : AtRead s.driverIo (((system X T).update l s.core).driver = .reading))
    (hs : AtRead s.sessionIo (((system X T).update l s.core).session = .reading)) :
    Inv X { s with core := (system X T).update l s.core } := by
  refine ⟨h.reachable.leads (leads_of_guard hg), ?_, ?_, hd, hs⟩
  · change Carried s.sessionIo s.driverIo s.toSession ((system X T).update l s.core).toSession
    rw [hto]
    exact h.toSession
  · change Carried s.driverIo s.sessionIo s.toDriver ((system X T).update l s.core).toDriver
    rw [hback]
    exact h.toDriver

/-! ## What a step does -/

/-- An intact step of the driver. -/
inductive DriverMoves (X : Externals) (P : Peer) (s : State T) : State T → Prop where
  | sends {body : Bytes} (hd : s.core.driver = .reading) (hio : s.driverIo = .sending body) :
      DriverMoves X P s { s with toSession := s.toSession.write body, driverIo := .start }
  | readsHeader {d : Int} {rest : Bytes} (hd : s.core.driver = .reading)
      (hio : s.driverIo = .start)
      (hcarried : Carried (.next d) s.sessionIo { s.toDriver with arrived := rest }
        s.core.toDriver) :
      DriverMoves X P s
        { s with toDriver := { s.toDriver with arrived := rest }, driverIo := .next d }
  | readsBody {d : Int} {f : Frame} {frames : List Frame} {msg : PicoMessage} {rest : Bytes}
      (hd : s.core.driver = .reading) (hio : s.driverIo = .next d)
      (hframes : s.core.toDriver = f :: frames) (hmsg : receive X f.body = .ok (some msg))
      (hcarried : Carried .start s.sessionIo { s.toDriver with arrived := rest } frames) :
      DriverMoves X P s
        { s with
          core := PicoDB.driverStep X (P.memory 0) s.core
          toDriver := { s.toDriver with arrived := rest }
          driverIo := .start }
  | writes {r : SharedPtr PicoRecord} {f : Frame} (hd : s.core.driver = .writing r)
      (hio : s.driverIo = .start) (hf : Driver.writeOneBuffer (P.memory 0) r.val = .ok f)
      (hannounced : Announced f) :
      DriverMoves X P s
        { s with
          core := PicoDB.driverStep X (P.memory 0) s.core
          toSession := s.toSession.write f.header
          driverIo := .sending f.body }
  | inside (hio : s.driverIo = .start) (hread : s.core.driver ≠ .reading)
      (hwrite : ∀ r, s.core.driver ≠ .writing r) :
      DriverMoves X P s { s with core := PicoDB.driverStep X (P.memory 0) s.core }

/-- An intact step of the session. -/
inductive SessionMoves (X : Externals) (P : Peer) (s : State T) : State T → Prop where
  | sends {body : Bytes} (hs : s.core.session = .reading) (hio : s.sessionIo = .sending body) :
      SessionMoves X P s { s with toDriver := s.toDriver.write body, sessionIo := .start }
  | readsHeader {d : Int} {rest : Bytes} (hs : s.core.session = .reading)
      (hio : s.sessionIo = .start)
      (hcarried : Carried (.next d) s.driverIo { s.toSession with arrived := rest }
        s.core.toSession) :
      SessionMoves X P s
        { s with toSession := { s.toSession with arrived := rest }, sessionIo := .next d }
  | readsBody {d : Int} {f : Frame} {frames : List Frame} {msg : PicoMessage} {rest : Bytes}
      (hs : s.core.session = .reading) (hio : s.sessionIo = .next d)
      (hframes : s.core.toSession = f :: frames) (hmsg : receive X f.body = .ok (some msg))
      (hcarried : Carried .start s.driverIo { s.toSession with arrived := rest } frames) :
      SessionMoves X P s
        { s with
          core := PicoDB.sessionStep X P.dangling (P.memory 0) s.core
          toSession := { s.toSession with arrived := rest }
          sessionIo := .start }
  | writes {r : PicoRecord} {f : Frame} (hs : s.core.session = .writing r)
      (hio : s.sessionIo = .start)
      (hf : Session.writeOneBuffer P.dangling (P.memory 0) r = .ok f) (hannounced : Announced f) :
      SessionMoves X P s
        { s with
          core := PicoDB.sessionStep X P.dangling (P.memory 0) s.core
          toDriver := s.toDriver.write f.header
          sessionIo := .sending f.body }
  | inside (hio : s.sessionIo = .start) (hread : s.core.session ≠ .reading)
      (hwrite : ∀ r, s.core.session ≠ .writing r) :
      SessionMoves X P s
        { s with core := PicoDB.sessionStep X P.dangling (P.memory 0) s.core }

/-- Step lemma of the driver. -/
theorem driverStep_moves {s : State T} {P : Peer} (h : Inv X s) (hfit : Fit X s.core)
    (hg : (wire X T).guard (.driver P) s) (hintact : Intact s (.driver P)) :
    DriverMoves X P s (driverStep X P s) := by
  have hstart : s.core.driver ≠ .reading → s.driverIo = .start := by
    intro hne
    by_contra hio
    exact hne (h.driverIo.1 hio)
  have hother : driverStep X P s = { s with core := PicoDB.driverStep X (P.memory 0) s.core } →
      s.core.driver ≠ .reading → (∀ r, s.core.driver ≠ .writing r) →
      DriverMoves X P s (driverStep X P s) := by
    intro hstep hread hwrite
    rw [hstep]
    exact .inside (hstart hread) hread hwrite
  cases hd : s.core.driver with
  | reading =>
    cases hio : s.driverIo with
    | sending body =>
      have hstep : driverStep X P s =
          { s with toSession := s.toSession.write body, driverIo := .start } := by
        simp only [driverStep, hd, hio, hintact.served.1, if_true]
      rw [hstep]
      exact .sends hd hio
    | start =>
      have hwaits : readBuffer X Driver.sizeToRead P .start s.toDriver.arrived ≠ .waits := by
        intro hw
        exact hg.2 hd ⟨by rw [hio]; rfl, by rw [hio]; exact hw⟩
      have hfull := hintact.served.2 hd
      have hdown := h.toDriver
      rw [hio] at hfull hdown
      obtain ⟨d, hread, hcarried⟩ := readBuffer_header Driver.faithful hdown hfull hwaits
      have hstep : driverStep X P s = { s with
          toDriver := { s.toDriver with arrived := s.toDriver.arrived.drop 10 },
          driverIo := .next d } := by
        simp only [driverStep, hd, hio, hread]
      rw [hstep]
      exact .readsHeader hd hio hcarried
    | next d =>
      have hwaits : readBuffer X Driver.sizeToRead P (.next d) s.toDriver.arrived ≠ .waits := by
        intro hw
        exact hg.2 hd ⟨by rw [hio]; rfl, by rw [hio]; exact hw⟩
      have hfull := hintact.served.2 hd
      have hdown := h.toDriver
      rw [hio] at hfull hdown
      obtain ⟨f, frames, msg, rest, hframes, hmsg, hread, hcarried⟩ :=
        readBuffer_body Driver.faithful hdown hfull hwaits (clean_of_inv (h.lockStep hfit) hfit).2
      have hcore : PicoDB.driverStep X (P.memory 0) s.core = { s.core with
          toDriver := s.core.toDriver.tail, driver := .queueing ⟨s.core.fresh, msg⟩,
          fresh := s.core.fresh + 1, replies := s.core.replies ++ [f.body] } := by
        simp only [PicoDB.driverStep, hd, hframes, hmsg, List.tail_cons]
      have hstep : driverStep X P s = { s with
          core := PicoDB.driverStep X (P.memory 0) s.core
          toDriver := { s.toDriver with arrived := rest }
          driverIo := .start } := by
        rw [hcore]
        simp only [driverStep, hd, hio, hread]
      rw [hstep]
      exact .readsBody hd hio hframes hmsg hcarried
  | writing r =>
    obtain ⟨f, hf, hannounced⟩ := announced_of_inv (h.lockStep hfit) hfit (fun _ => rfl)
      (P.memory 0) (r := r.val) (Or.inl ⟨r.addr, hd⟩)
    have hf' : Driver.writeOneBuffer (P.memory 0) r.val = .ok f := hf
    have hstep : driverStep X P s = { s with
        core := PicoDB.driverStep X (P.memory 0) s.core
        toSession := s.toSession.write f.header
        driverIo := .sending f.body } := by
      simp only [driverStep, hd, hf', hintact.served.1, if_true]
    rw [hstep]
    exact .writes hd (hstart (by simp [hd])) hf' hannounced
  | testing => exact hother (by simp only [driverStep, hd]) (by simp [hd]) (by simp [hd])
  | parked => exact hother (by simp only [driverStep, hd]) (by simp [hd]) (by simp [hd])
  | popping => exact hother (by simp only [driverStep, hd]) (by simp [hd]) (by simp [hd])
  | queueing msg => exact hother (by simp only [driverStep, hd]) (by simp [hd]) (by simp [hd])
  | halted => exact absurd hd hg.1

/-- Step lemma of the session. -/
theorem sessionStep_moves {s : State T} {P : Peer} (h : Inv X s) (hfit : Fit X s.core)
    (hg : (wire X T).guard (.session P) s) (hintact : Intact s (.session P)) :
    SessionMoves X P s (sessionStep X P s) := by
  have hstart : s.core.session ≠ .reading → s.sessionIo = .start := by
    intro hne
    by_contra hio
    exact hne (h.sessionIo.1 hio)
  have hother : sessionStep X P s =
        { s with core := PicoDB.sessionStep X P.dangling (P.memory 0) s.core } →
      s.core.session ≠ .reading → (∀ r, s.core.session ≠ .writing r) →
      SessionMoves X P s (sessionStep X P s) := by
    intro hstep hread hwrite
    rw [hstep]
    exact .inside (hstart hread) hread hwrite
  cases hs : s.core.session with
  | reading =>
    cases hio : s.sessionIo with
    | sending body =>
      have hstep : sessionStep X P s =
          { s with toDriver := s.toDriver.write body, sessionIo := .start } := by
        simp only [sessionStep, hs, hio, hintact.served.1, if_true]
      rw [hstep]
      exact .sends hs hio
    | start =>
      have hwaits : readBuffer X Session.sizeToRead P .start s.toSession.arrived ≠ .waits := by
        intro hw
        exact hg.2 hs ⟨by rw [hio]; rfl, by rw [hio]; exact hw⟩
      have hfull := hintact.served.2 hs
      have hup := h.toSession
      rw [hio] at hfull hup
      obtain ⟨d, hread, hcarried⟩ := readBuffer_header Session.faithful hup hfull hwaits
      have hstep : sessionStep X P s = { s with
          toSession := { s.toSession with arrived := s.toSession.arrived.drop 10 },
          sessionIo := .next d } := by
        simp only [sessionStep, hs, hio, hread]
      rw [hstep]
      exact .readsHeader hs hio hcarried
    | next d =>
      have hwaits : readBuffer X Session.sizeToRead P (.next d) s.toSession.arrived ≠ .waits := by
        intro hw
        exact hg.2 hs ⟨by rw [hio]; rfl, by rw [hio]; exact hw⟩
      have hfull := hintact.served.2 hs
      have hup := h.toSession
      rw [hio] at hfull hup
      obtain ⟨f, frames, msg, rest, hframes, hmsg, hread, hcarried⟩ :=
        readBuffer_body Session.faithful hup hfull hwaits (clean_of_inv (h.lockStep hfit) hfit).1
      have hcore : PicoDB.sessionStep X P.dangling (P.memory 0) s.core = { s.core with
          toSession := s.core.toSession.tail, session := .queueing msg } := by
        simp only [PicoDB.sessionStep, hs, hframes, hmsg, List.tail_cons]
      have hstep : sessionStep X P s = { s with
          core := PicoDB.sessionStep X P.dangling (P.memory 0) s.core
          toSession := { s.toSession with arrived := rest }
          sessionIo := .start } := by
        rw [hcore]
        simp only [sessionStep, hs, hio, hread]
      rw [hstep]
      exact .readsBody hs hio hframes hmsg hcarried
  | writing r =>
    obtain ⟨f, hf, hannounced⟩ := announced_of_inv (h.lockStep hfit) hfit hintact.sizes (P.memory 0)
      (Or.inr hs)
    have hf' : Session.writeOneBuffer P.dangling (P.memory 0) r = .ok f := hf
    have hstep : sessionStep X P s = { s with
        core := PicoDB.sessionStep X P.dangling (P.memory 0) s.core
        toDriver := s.toDriver.write f.header
        sessionIo := .sending f.body } := by
      simp only [sessionStep, hs, hf', hintact.served.1, if_true]
    rw [hstep]
    exact .writes hs (hstart (by simp [hs])) hf' hannounced
  | testing => exact hother (by simp only [sessionStep, hs]) (by simp [hs]) (by simp [hs])
  | parked => exact hother (by simp only [sessionStep, hs]) (by simp [hs]) (by simp [hs])
  | popping => exact hother (by simp only [sessionStep, hs]) (by simp [hs]) (by simp [hs])
  | queueing msg => exact hother (by simp only [sessionStep, hs]) (by simp [hs]) (by simp [hs])
  | halted => exact absurd hs hg.1

/-! ## Runs -/

theorem DriverMoves.inv {s s' : State T} {P : Peer} (hm : DriverMoves X P s s') (h : Inv X s)
    (hg : s.core.driver ≠ .halted) : Inv X s' := by
  have hup := h.toSession
  have hdown := h.toDriver
  have hreachable : (s.core.driver = .reading → s.core.toDriver ≠ []) →
      Reachable (system X T) (PicoDB.driverStep X (P.memory 0) s.core) := fun hframe =>
    h.reachable.leads (leads_of_guard (M := system X T) (l := .driver (P.memory 0)) ⟨hg, hframe⟩)
  cases hm with
  | sends hd hio =>
    rw [hio] at hup hdown
    exact ⟨h.reachable, hup.writeBody, hdown.reader_sending, atRead_start _, h.sessionIo⟩
  | @readsHeader d rest hd hio hcarried =>
    rw [hio] at hup
    exact ⟨h.reachable, ⟨hup.announced, hup.bytes⟩, hcarried, atRead_next d hd, h.sessionIo⟩
  | @readsBody d f frames msg rest hd hio hframes hmsg hcarried =>
    have hcore : PicoDB.driverStep X (P.memory 0) s.core = { s.core with
        toDriver := frames, driver := .queueing ⟨s.core.fresh, msg⟩,
        fresh := s.core.fresh + 1, replies := s.core.replies ++ [f.body] } := by
      simp only [PicoDB.driverStep, hd, hframes, hmsg]
    have hnext := hreachable fun _ => by rw [hframes]; simp
    rw [hio] at hup
    rw [hcore] at hnext ⊢
    exact ⟨hnext, ⟨hup.announced, hup.bytes⟩, hcarried, atRead_start _, h.sessionIo⟩
  | @writes r f hd hio hf hannounced =>
    have hcore : PicoDB.driverStep X (P.memory 0) s.core = { s.core with
        toSession := s.core.toSession ++ [f], driver := .reading,
        written := s.core.written ++ [f.body] } := by
      simp only [PicoDB.driverStep, hd, hf]
    have hnext := hreachable fun hread => by rw [hd] at hread; cases hread
    rw [hio] at hup hdown
    rw [hcore] at hnext ⊢
    exact ⟨hnext, hup.writeHeader hannounced, hdown.to_sending, hannounced.atRead rfl, h.sessionIo⟩
  | inside hio hread hwrite =>
    obtain ⟨hto, hback, hsession⟩ := driverStep_channels (X := X) (P.memory 0) hread hwrite
    refine h.core (.driver (P.memory 0)) ⟨hg, fun hd => absurd hd hread⟩ hto hback ?_ ?_
    · exact hio ▸ atRead_start _
    · exact h.sessionIo.mono hsession.trans

theorem SessionMoves.inv {s s' : State T} {P : Peer} (hm : SessionMoves X P s s') (h : Inv X s)
    (hg : s.core.session ≠ .halted) : Inv X s' := by
  have hup := h.toSession
  have hdown := h.toDriver
  have hreachable : (s.core.session = .reading → s.core.toSession ≠ []) →
      Reachable (system X T) (PicoDB.sessionStep X P.dangling (P.memory 0) s.core) := fun hframe =>
    h.reachable.leads (leads_of_guard (M := system X T) (l := .session P.dangling (P.memory 0))
      ⟨hg, hframe⟩)
  cases hm with
  | sends hs hio =>
    rw [hio] at hup hdown
    exact ⟨h.reachable, hup.reader_sending, hdown.writeBody, h.driverIo, atRead_start _⟩
  | @readsHeader d rest hs hio hcarried =>
    rw [hio] at hdown
    exact ⟨h.reachable, hcarried, ⟨hdown.announced, hdown.bytes⟩, h.driverIo, atRead_next d hs⟩
  | @readsBody d f frames msg rest hs hio hframes hmsg hcarried =>
    have hcore : PicoDB.sessionStep X P.dangling (P.memory 0) s.core = { s.core with
        toSession := frames, session := .queueing msg } := by
      simp only [PicoDB.sessionStep, hs, hframes, hmsg]
    have hnext := hreachable fun _ => by rw [hframes]; simp
    rw [hio] at hdown
    rw [hcore] at hnext ⊢
    exact ⟨hnext, hcarried, ⟨hdown.announced, hdown.bytes⟩, h.driverIo, atRead_start _⟩
  | @writes r f hs hio hf hannounced =>
    have hcore : PicoDB.sessionStep X P.dangling (P.memory 0) s.core = { s.core with
        toDriver := s.core.toDriver ++ [f], session := .reading } := by
      simp only [PicoDB.sessionStep, hs, hf]
    have hnext := hreachable fun hread => by rw [hs] at hread; cases hread
    rw [hio] at hup hdown
    rw [hcore] at hnext ⊢
    exact ⟨hnext, hup.to_sending, hdown.writeHeader hannounced, h.driverIo, hannounced.atRead rfl⟩
  | inside hio hread hwrite =>
    obtain ⟨hto, hback, hdriver⟩ :=
      sessionStep_channels (X := X) P.dangling (P.memory 0) hread hwrite
    refine h.core (.session P.dangling (P.memory 0)) ⟨hg, fun hs => absurd hs hread⟩ hto hback ?_ ?_
    · exact h.driverIo.mono hdriver.trans
    · exact hio ▸ atRead_start _

theorem init_inv {s : State T} (h : (wire X T).Init s) : Inv X s := by
  cases h
  have hnothing : Carried .start .start {} [] := ⟨by simp, rfl⟩
  exact ⟨⟨[], .start rfl⟩, hnothing, hnothing, atRead_start _, atRead_start _⟩

/-- Step lemma. -/
theorem step_inv (l : Label T) {s : State T} (hg : (wire X T).guard l s) (hintact : Intact s l)
    (hfit : Fit X s.core) (h : Inv X s) : Inv X ((wire X T).update l s) := by
  cases l with
  | issue t a draw t1 t2 u =>
    exact h.core (.issue t a draw t1 t2 u) hg rfl rfl h.driverIo h.sessionIo
  | caller t locked =>
    have hsame := callerStep_sameLoops X t locked s.core
    exact h.core (.caller t locked) hg hsame.toSession hsame.toDriver
      (h.driverIo.mono hsame.driver.trans) (h.sessionIo.mono hsame.session.trans)
  | driver P => exact (driverStep_moves h hfit hg hintact).inv h hg.1
  | session P => exact (sessionStep_moves h hfit hg hintact).inv h hg.1
  | toSession k => exact ⟨h.reachable, h.toSession.arrive k, h.toDriver, h.driverIo, h.sessionIo⟩
  | toDriver k => exact ⟨h.reachable, h.toSession, h.toDriver.arrive k, h.driverIo, h.sessionIo⟩

omit [DecidableEq T] in
theorem driverStep_calls (P : Peer) (s : State T) : SameCalls s.core (driverStep X P s).core := by
  have hcore := driverStep_sameCalls X (P.memory 0) s.core
  unfold driverStep
  repeat' split
  all_goals first | exact hcore | exact ⟨rfl, rfl, rfl, rfl, rfl⟩

omit [DecidableEq T] in
theorem sessionStep_calls (P : Peer) (s : State T) : SameCalls s.core (sessionStep X P s).core := by
  have hcore := sessionStep_sameCalls X P.dangling (P.memory 0) s.core
  unfold sessionStep
  repeat' split
  all_goals first | exact hcore | exact ⟨rfl, rfl, rfl, rfl, rfl⟩

/-- Requests are only ever added. -/
theorem fit_of_update (l : Label T) {s : State T} (h : Fit X ((wire X T).update l s).core) :
    Fit X s.core := by
  have hgrows : s.core.issued <+: ((wire X T).update l s).core.issued := by
    cases l with
    | issue t a draw t1 t2 u => exact issued_grows X (.issue t a draw t1 t2 u) s.core
    | caller t locked => exact issued_grows X (.caller t locked) s.core
    | driver P =>
      change _ <+: (driverStep X P s).core.issued
      rw [(driverStep_calls P s).issued]
    | session P =>
      change _ <+: (sessionStep X P s).core.issued
      rw [(sessionStep_calls P s).issued]
    | toSession k => exact List.prefix_rfl
    | toDriver k => exact List.prefix_rfl
  exact fun m hm => h m (hgrows.subset hm)

/-- Run lemma. -/
theorem inv_of_run {tr : List (State T × Label T)} {s : State T} (h : Run (wire X T) tr s)
    (hintact : ∀ p ∈ tr, Intact p.1 p.2) (hfit : Fit X s.core) : Inv X s :=
  run_invariant_under (fun s => Fit X s.core) Intact (Inv X) (fun l _ _ => fit_of_update l)
    (fun _ => init_inv) (fun l _ hg hC hH hi => step_inv l hg hC hH hi) h hintact hfit

end PicoDB.Wire
