import Mathlib.Data.Rat.Floor
import Mathlib.Logic.Function.Basic
import PicoDB.Framing
import PicoDB.Lib.Lts
import PicoDB.Lib.Rounding
import PicoDB.Vector

/-!
# PicoDB.System — application threads, one driver, one session

Three kinds of threads, each with its program counter: the driver's loop
(`PonocoDriver::start`), the session's loop (`pico_session::start`), and any
number of application threads, each in a call of `getTheResponseOfRequest` or
between two calls. They share the driver's two vectors; driver and session
share one connection, which delivers frames whole and in order in each
direction. A step of the system is one atomic step of one thread.

Condition variables may wake a parked thread at any time; a `halted` thread has
left its loop through a fault, or takes a body for a size.

The history variables at the end of the state record what happened: nothing
reads them.
-/

namespace PicoDB

open ConcurrentVector

/-! ## Threads -/

/-- A call of `getTheResponseOfRequest`: the request, the two readings of the
clock in nanoseconds, both taken before the loop, and the timeout in seconds. -/
structure Call where
  msg : PicoMessage
  t1 : Int
  t2 : Int
  userTimeOut : Int
deriving DecidableEq, Repr

/-- The nearest `double`; no number here is beyond the range of a `double`. -/
def double (x : ℚ) : ℚ := Rounding.round 53 x

/-- `time_span.count()`: the nanoseconds become a `double` before they are divided. -/
def Call.timeoutInSeconds (c : Call) : ℚ := double (double ((c.t2 - c.t1 : ℤ) : ℚ) / 10 ^ 9)

/-- `timeoutInSeconds>=userTimeOut`, where the `long` becomes a `double`, too. -/
def Call.timedOut (c : Call) : Bool := double c.userTimeOut ≤ c.timeoutInSeconds

/-- The message a call returns when it gives up. -/
def Call.timeoutResponse (X : Externals) (c : Call) : PicoMessage :=
  let timeout := ascii "OPERATION TIMED OUT for this command :  !" ++ c.msg.command ++
    ascii " with this message id : " ++ c.msg.messageId
  (FieldArgs.fromDB c.msg.key timeout c.msg.messageId).build X fun _ => 0

/-- Where an application thread is. -/
inductive CallerPc where
  | idle
  /-- at `!responseQueue_.empty()` -/
  | testing (c : Call)
  | peeking (c : Call)
  | comparing (c : Call) (response : Option (SharedPtr PicoMessage))
  | removing (c : Call) (response : SharedPtr PicoMessage)
  /-- at the comparison of the time spent with the timeout -/
  | timing (c : Call)
deriving DecidableEq, Repr

/-- The call a thread is in. -/
def CallerPc.call : CallerPc → Option Call
  | idle => none
  | testing c => some c
  | peeking c => some c
  | comparing c _ => some c
  | removing c _ => some c
  | timing c => some c

/-- Where the driver's loop is: `writeOneBuffer` up to `writing`, then
`readOneBuffer(10)` and `queueTheResponse`. -/
inductive DriverPc where
  | testing
  | parked
  | popping
  | writing (currentBuffer : SharedPtr PicoRecord)
  | reading
  | queueing (msg : SharedPtr PicoMessage)
  | halted
deriving DecidableEq, Repr

/-- Where the session's loop is: `readOneBuffer(10)` and `queueMessages`, then
`writeOneBuffer`. -/
inductive SessionPc where
  | reading
  | queueing (reply : PicoMessage)
  | testing
  | parked
  | popping
  | writing (currentBuffer : PicoRecord)
  | halted
deriving DecidableEq, Repr

/-- The system; `T` are the application threads. -/
structure State (T : Type) where
  /-- the driver's `bufferQueuePtr_` -/
  requestQueue : List (SharedPtr PicoRecord) := []
  driver : DriverPc := .testing
  toSession : List Frame := []
  session : SessionPc := .reading
  /-- the session's `bufferQueue_` -/
  bufferQueue : List PicoRecord := []
  toDriver : List Frame := []
  /-- `responseQueue_` -/
  responseQueue : List (SharedPtr PicoMessage) := []
  callers : T → CallerPc := fun _ => .idle
  /-- the address the next `new` gives -/
  fresh : Nat := 0
  /-- history: the requests, in the order they were pushed -/
  issued : List PicoMessage := []
  /-- history: their records -/
  pushed : List (SharedPtr PicoRecord) := []
  /-- history: the records popped for writing -/
  popped : List (SharedPtr PicoRecord) := []
  /-- history: the bodies the driver wrote -/
  written : List Bytes := []
  /-- history: the bodies the driver read -/
  replies : List Bytes := []
  /-- history: the calls that came back with a response -/
  returned : List (Call × SharedPtr PicoMessage) := []
  /-- history: the calls that gave up, and what they returned -/
  gaveUp : List (Call × PicoMessage) := []

/-- A body that arrived whole: what the reader takes it for, and the message
parsed from it; `none` when it is taken for a size. -/
def receive (X : Externals) (body : Bytes) : Except Fault (Option PicoMessage) := do
  match ← processTheBufferJustRead (.ofString body) body.length with
  | .readNext _ => .ok none
  | .message str => (PicoMessage.ofJson X str).map some

/-! ## Steps -/

section Steps

variable {T : Type}

/-- `queueRequestMessages`. -/
def queueRequestMessages (message : PicoMessage) (s : State T) : State T :=
  let curBufPtr := ⟨s.fresh, message.getCompleteMessageInJsonAsOnBuffer⟩
  { s with
    requestQueue := pushBack curBufPtr s.requestQueue
    fresh := s.fresh + 1
    issued := s.issued ++ [message]
    pushed := s.pushed ++ [curBufPtr] }

/-- A step of the driver's loop; `M` is the memory its write finds. -/
def driverStep (X : Externals) (M : Memory) (s : State T) : State T :=
  match s.driver with
  | .testing => { s with driver := if s.requestQueue = [] then .parked else .popping }
  | .parked => { s with driver := .testing }
  | .popping =>
    match pop s.requestQueue with
    | (some r, rest) =>
      { s with requestQueue := rest, driver := .writing r, popped := s.popped ++ [r] }
    -- an empty pointer is dereferenced
    | (none, _) => { s with driver := .halted }
  | .writing r =>
    match Driver.writeOneBuffer M r.val with
    | .ok f =>
      { s with
        toSession := s.toSession ++ [f], driver := .reading, written := s.written ++ [f.body] }
    | .error _ => { s with driver := .halted }
  | .reading =>
    match s.toDriver with
    | [] => s
    | f :: rest =>
      match receive X f.body with
      | .ok (some msg) =>
        { s with
          toDriver := rest, driver := .queueing ⟨s.fresh, msg⟩, fresh := s.fresh + 1
          replies := s.replies ++ [f.body] }
      -- a fault, or a body taken for a size
      | _ => { s with toDriver := rest, driver := .halted, replies := s.replies ++ [f.body] }
  | .queueing msg =>
    { s with responseQueue := pushBack msg s.responseQueue, driver := .testing }
  | .halted => s

/-- A step of the session's loop; the reply is the message itself. -/
def sessionStep (X : Externals) (dangling : Nat → Bytes) (M : Memory) (s : State T) : State T :=
  match s.session with
  | .reading =>
    match s.toSession with
    | [] => s
    | f :: rest =>
      match receive X f.body with
      | .ok (some msg) => { s with toSession := rest, session := .queueing msg }
      | _ => { s with toSession := rest, session := .halted }
  | .queueing reply =>
    { s with
      bufferQueue := pushBack reply.getCompleteMessageInJsonAsOnBuffer s.bufferQueue
      session := .testing }
  | .testing => { s with session := if s.bufferQueue = [] then .parked else .popping }
  | .parked => { s with session := .testing }
  | .popping =>
    match pop s.bufferQueue with
    | (some r, rest) => { s with bufferQueue := rest, session := .writing r }
    -- an empty pointer is dereferenced
    | (none, _) => { s with session := .halted }
  | .writing r =>
    match Session.writeOneBuffer dangling M r with
    | .ok f => { s with toDriver := s.toDriver ++ [f], session := .reading }
    | .error _ => { s with session := .halted }
  | .halted => s

variable [DecidableEq T]

/-- Thread `t` goes to `pc`. -/
def setCaller (t : T) (pc : CallerPc) (s : State T) : State T :=
  { s with callers := Function.update s.callers t pc }

/-- A step of a thread in `getTheResponseOfRequest`; `locked` tells whether a
`peek` gets the lock. -/
def callerStep (X : Externals) (t : T) (locked : Bool) (s : State T) : State T :=
  match s.callers t with
  | .idle => s
  | .testing c => setCaller t (if s.responseQueue = [] then .timing c else .peeking c) s
  | .peeking c => setCaller t (.comparing c (peek locked s.responseQueue)) s
  -- `response!=nullptr` fails
  | .comparing c none => setCaller t (.timing c) s
  | .comparing c (some response) =>
    if response.val.messageId = c.msg.messageId then setCaller t (.removing c response) s
    else setCaller t (.timing c) s
  | .removing c response =>
    setCaller t .idle
      { s with
        responseQueue := remove (fun p => p.addr == response.addr) s.responseQueue
        returned := s.returned ++ [(c, response)] }
  | .timing c =>
    if c.timedOut then
      setCaller t .idle { s with gaveUp := s.gaveUp ++ [(c, c.timeoutResponse X)] }
    else setCaller t (.testing c) s

end Steps

/-- What can happen next. -/
inductive Label (T : Type) where
  /-- thread `t` builds a message, queues it and starts to wait for its response -/
  | issue (t : T) (a : FieldArgs) (draw : Fin 32 → Nat) (t1 t2 userTimeOut : Int)
  | caller (t : T) (locked : Bool)
  | driver (M : Memory)
  | session (dangling : Nat → Bytes) (M : Memory)

/-- The system: no thread has issued anything at first. -/
def system (X : Externals) (T : Type) [DecidableEq T] : Lts.System (State T) (Label T) where
  Init s := s = {}
  guard
    | .issue t _ _ _ _ _, s => s.callers t = .idle
    | .caller t _, s => s.callers t ≠ .idle
    | .driver _, s => s.driver ≠ .halted ∧ (s.driver = .reading → s.toDriver ≠ [])
    | .session _ _, s => s.session ≠ .halted ∧ (s.session = .reading → s.toSession ≠ [])
  update
    | .issue t a draw t1 t2 userTimeOut, s =>
      let msg := a.build X draw
      setCaller t (.testing ⟨msg, t1, t2, userTimeOut⟩) (queueRequestMessages msg s)
    | .caller t locked, s => callerStep X t locked s
    | .driver M, s => driverStep X M s
    | .session dangling M, s => sessionStep X dangling M s

instance (X : Externals) (T : Type) [DecidableEq T] (l : Label T) (s : State T) :
    Decidable ((system X T).guard l s) :=
  match l with
  | .issue t _ _ _ _ _ => inferInstanceAs (Decidable (s.callers t = .idle))
  | .caller t _ => inferInstanceAs (Decidable (s.callers t ≠ .idle))
  | .driver _ =>
    inferInstanceAs (Decidable (s.driver ≠ .halted ∧ (s.driver = .reading → s.toDriver ≠ [])))
  | .session _ _ =>
    inferInstanceAs (Decidable (s.session ≠ .halted ∧ (s.session = .reading → s.toSession ≠ [])))

section

variable (X : Externals) {T : Type} [DecidableEq T] (s : State T)

@[simp] theorem update_caller (t : T) (locked : Bool) :
    (system X T).update (.caller t locked) s = callerStep X t locked s := rfl

@[simp] theorem update_driver (M : Memory) :
    (system X T).update (.driver M) s = driverStep X M s := rfl

@[simp] theorem update_session (dangling : Nat → Bytes) (M : Memory) :
    (system X T).update (.session dangling M) s = sessionStep X dangling M s := rfl

end

/-! ## What a step leaves alone -/

variable {T : Type}

/-- The application threads and their history stand still. -/
structure SameCalls (s s' : State T) : Prop where
  callers : s'.callers = s.callers
  issued : s'.issued = s.issued
  pushed : s'.pushed = s.pushed
  returned : s'.returned = s.returned
  gaveUp : s'.gaveUp = s.gaveUp

/-- The two loops, what is between them and their history stand still. -/
structure SameLoops (s s' : State T) : Prop where
  requestQueue : s'.requestQueue = s.requestQueue
  driver : s'.driver = s.driver
  toSession : s'.toSession = s.toSession
  session : s'.session = s.session
  bufferQueue : s'.bufferQueue = s.bufferQueue
  toDriver : s'.toDriver = s.toDriver
  fresh : s'.fresh = s.fresh
  issued : s'.issued = s.issued
  pushed : s'.pushed = s.pushed
  popped : s'.popped = s.popped
  written : s'.written = s.written
  replies : s'.replies = s.replies

theorem driverStep_sameCalls (X : Externals) (M : Memory) (s : State T) :
    SameCalls s (driverStep X M s) := by
  unfold driverStep
  repeat' split
  all_goals exact ⟨rfl, rfl, rfl, rfl, rfl⟩

theorem sessionStep_sameCalls (X : Externals) (dangling : Nat → Bytes) (M : Memory)
    (s : State T) : SameCalls s (sessionStep X dangling M s) := by
  unfold sessionStep
  repeat' split
  all_goals exact ⟨rfl, rfl, rfl, rfl, rfl⟩

/-- The session touches neither of the driver's vectors. -/
theorem sessionStep_frame (X : Externals) (dangling : Nat → Bytes) (M : Memory) (s : State T) :
    (sessionStep X dangling M s).requestQueue = s.requestQueue ∧
      (sessionStep X dangling M s).responseQueue = s.responseQueue ∧
      (sessionStep X dangling M s).driver = s.driver ∧
      (sessionStep X dangling M s).fresh = s.fresh ∧
      (sessionStep X dangling M s).popped = s.popped := by
  unfold sessionStep
  repeat' split
  all_goals exact ⟨rfl, rfl, rfl, rfl, rfl⟩

theorem callerStep_sameLoops [DecidableEq T] (X : Externals) (t : T) (locked : Bool)
    (s : State T) : SameLoops s (callerStep X t locked s) := by
  unfold callerStep setCaller
  repeat' split
  all_goals exact ⟨rfl, rfl, rfl, rfl, rfl, rfl, rfl, rfl, rfl, rfl, rfl, rfl⟩

/-- Requests are only ever added. -/
theorem issued_grows [DecidableEq T] (X : Externals) (l : Label T) (s : State T) :
    s.issued <+: ((system X T).update l s).issued := by
  cases l with
  | issue t a draw t1 t2 userTimeOut => exact List.prefix_append _ _
  | caller t locked => rw [update_caller, (callerStep_sameLoops X t locked s).issued]
  | driver M => rw [update_driver, (driverStep_sameCalls X M s).issued]
  | session dangling M => rw [update_session, (sessionStep_sameCalls X dangling M s).issued]

end PicoDB
