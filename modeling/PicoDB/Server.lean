import Mathlib.Logic.Function.Basic
import PicoDB.Lib.Lts
import PicoDB.Session

/-!
# PicoDB.Server — `pico_server.h`

One thread runs `io_service.run()`. The handler of `async_accept` builds a
session on the server's only socket object and calls `start`, which loops over
reads and writes; `acceptConnection` comes after that. Any number of clients
connect, send and disconnect at any time.

A session leaves its loop by an exception, and then its destructor asserts
`shutDownNormally`, which nothing sets. So the handler of the first connection
never comes to its last line, and `serves_many_iff` follows.
-/

namespace PicoDB

namespace Server

open Lts

/-! ## State -/

/-- A client, as seen from the machine of the server. -/
structure Client where
  connected : Bool := false
  closed : Bool := false
  /-- what it has sent and nobody has read -/
  incoming : Bytes := []
  /-- what was written to it -/
  received : Bytes := []
deriving DecidableEq, Repr

/-- A `pico_session` that is alive; `socket_` is the address of its socket. -/
structure LiveSession where
  socket_ : Nat
  shutDownNormally : Bool := false
deriving DecidableEq, Repr

/-- Where the thread in `io_service.run()` is. -/
inductive IoPc where
  /-- in `acceptConnection` -/
  | arming
  /-- waiting for the acceptor -/
  | polling
  /-- in `initClientHandler` -/
  | handling
  /-- in `start`, at `readOneBuffer(dataSizeToReadNext)` -/
  | reading (dataSizeToReadNext : Int)
  /-- in `start`, with a complete message -/
  | replying (str : Bytes)
  /-- behind `start`, at the end of the scope of `sessionPtr` -/
  | returned
  | aborted (a : Assertion)
deriving DecidableEq, Repr

/-- The server and its clients `C`. -/
structure State (C : Type) where
  io : IoPc := .arming
  /-- the address of the socket object of the server -/
  socket : Nat := 0
  /-- the client that socket is connected to -/
  peer : Option C := none
  sessions : List LiveSession := []
  /-- connections that nobody has accepted, oldest first -/
  backlog : List C := []
  clients : C → Client := fun _ => {}

/-! ## Steps -/

section Steps

variable {C : Type}

/-- The thread leaves its loop by a fault: `start` catches an exception and
returns. -/
def stop (f : Fault) (s : State C) : State C :=
  match f with
  | .assertion a => { s with io := .aborted a }
  | .exception _ => { s with io := .returned }

/-- The surroundings of the socket at this moment: its peer has closed or not. -/
def peerOf (P : Peer) (c : Client) : Peer := { P with closes := c.closed }

variable [DecidableEq C]

/-- Client `c` becomes `x`. -/
def setClient (c : C) (x : Client) (s : State C) : State C :=
  { s with clients := Function.update s.clients c x }

/-- `readOneBuffer(d)` of the session, on the connection with client `c`. -/
def readStep (P : Peer) (d : Int) (c : C) (s : State C) : State C :=
  match Session.sizeToRead d with
  | .error f => stop f s
  | .ok n =>
    match (peerOf P (s.clients c)).readSome n { incoming := (s.clients c).incoming } with
    | none => s
    | some (r, connection) =>
      let s' := setClient c { s.clients c with incoming := connection.incoming } s
      match r.verdict with
      | .error f => stop f s'
      | .ok (.readNext m) => { s' with io := .reading m }
      | .ok (.message str) => { s' with io := .replying str }

/-- `processDataFromOtherSide` and `writeOneBuffer` of the session. -/
def replyStep (X : Externals) (P : Peer) (str : Bytes) (c : C) (s : State C) : State C :=
  match Session.reply X (peerOf P (s.clients c)) str { incoming := (s.clients c).incoming } with
  | .error f => stop f s
  | .ok connection =>
    { setClient c { s.clients c with
        received := (s.clients c).received ++ connection.outgoing } s with io := .reading 10 }

/-- A step of the thread in `io_service.run()`; `P` is what its socket calls
meet with. -/
def ioStep (X : Externals) (P : Peer) (s : State C) : State C :=
  match s.io with
  | .arming => { s with io := .polling }
  | .polling => s
  | .handling =>
    -- the session has the socket of the server itself
    { s with sessions := s.sessions ++ [{ socket_ := s.socket }], io := .reading 10 }
  | .reading d =>
    match s.peer with
    | some c => readStep P d c s
    | none => s
  | .replying str =>
    match s.peer with
    | some c => replyStep X P str c s
    | none => s
  | .returned =>
    -- `~pico_session`, and then the last line of the handler
    match s.sessions.getLast? with
    | some session =>
      if session.shutDownNormally then { s with sessions := s.sessions.dropLast, io := .arming }
      else { s with io := .aborted .shutDownNormally }
    | none => { s with io := .arming }
  | .aborted _ => s

/-- The thread can go on: it is not waiting for the acceptor or for bytes. -/
def ioReady (P : Peer) (s : State C) : Bool :=
  match s.io, s.peer with
  | .polling, _ => false
  | .aborted _, _ => false
  | .reading d, some c =>
    match Session.sizeToRead d with
    | .error _ => true
    | .ok n =>
      ((peerOf P (s.clients c)).readSome n { incoming := (s.clients c).incoming }).isSome
  | _, _ => true

end Steps

/-- What can happen next. -/
inductive Label (C : Type) where
  | connect (c : C)
  | send (c : C) (bytes : Bytes)
  | disconnect (c : C)
  /-- the acceptor takes the oldest connection -/
  | accept
  /-- the handler is called with an error -/
  | acceptError
  | io (P : Peer)

/-- The server: `acceptConnection` is called by its constructor. -/
def server (X : Externals) (C : Type) [DecidableEq C] : System (State C) (Label C) where
  Init s := s = {}
  guard
    | .connect c, s => (s.clients c).connected = false
    | .send c _, s => (s.clients c).connected = true ∧ (s.clients c).closed = false
    | .disconnect c, s => (s.clients c).connected = true ∧ (s.clients c).closed = false
    | .accept, s => s.io = .polling ∧ s.backlog ≠ []
    | .acceptError, s => s.io = .polling
    | .io P, s => ioReady P s = true
  update
    | .connect c, s =>
      setClient c { s.clients c with connected := true } { s with backlog := s.backlog ++ [c] }
    | .send c bytes, s =>
      setClient c { s.clients c with incoming := (s.clients c).incoming ++ bytes } s
    | .disconnect c, s => setClient c { s.clients c with closed := true } s
    | .accept, s => { s with peer := s.backlog.head?, backlog := s.backlog.tail, io := .handling }
    | .acceptError, s => { s with io := .arming }
    | .io P, s => ioStep X P s

instance (X : Externals) (C : Type) [DecidableEq C] (l : Label C) (s : State C) :
    Decidable ((server X C).guard l s) :=
  match l with
  | .connect c => inferInstanceAs (Decidable ((s.clients c).connected = false))
  | .send c _ =>
    inferInstanceAs (Decidable ((s.clients c).connected = true ∧ (s.clients c).closed = false))
  | .disconnect c =>
    inferInstanceAs (Decidable ((s.clients c).connected = true ∧ (s.clients c).closed = false))
  | .accept => inferInstanceAs (Decidable (s.io = .polling ∧ s.backlog ≠ []))
  | .acceptError => inferInstanceAs (Decidable (s.io = .polling))
  | .io P => inferInstanceAs (Decidable (ioReady P s = true))

/-! ## Serving many clients -/

section Serving

variable {X : Externals} {C : Type} [DecidableEq C]

/-- The server comes to wait for a connection by steps of its own: no client
has to do anything first. -/
def CanAccept (X : Externals) (s : State C) : Prop :=
  ∃ Ps : List Peer, Fires (server X C) (Ps.map .io) s ∧
    (after (server X C) (Ps.map .io) s).io = .polling

/-- No two live sessions have the same socket object. -/
def SocketsApart (s : State C) : Prop := (s.sessions.map LiveSession.socket_).Nodup

/-- Nobody has been accepted. -/
structure Idle (s : State C) : Prop where
  io : s.io = .arming ∨ s.io = .polling
  sessions : s.sessions = []

/-- The thread is in the call of `start`, or behind it. -/
def IoPc.inSession : IoPc → Bool
  | .reading _ => true
  | .replying _ => true
  | .returned => true
  | .aborted _ => true
  | _ => false

/-- The thread is in the handler of a connection. -/
inductive Busy (s : State C) : Prop where
  | handling (hio : s.io = .handling) (hsessions : s.sessions = [])
  | inSession (hio : s.io.inSession = true) (hsessions : s.sessions = [{ socket_ := s.socket }])

/-! ### A step of the session -/

/-- `s'` is `s` but for the clients, and the thread is still in the session. -/
structure StaysInSession (s s' : State C) : Prop where
  io : s'.io.inSession = true
  sessions : s'.sessions = s.sessions
  socket : s'.socket = s.socket

omit [DecidableEq C] in
theorem stop_stays (f : Fault) (s : State C) : StaysInSession s (stop f s) := by
  cases f <;> exact ⟨rfl, rfl, rfl⟩

theorem readStep_stays (P : Peer) (d : Int) (c : C) {s : State C} (h : s.io.inSession = true) :
    StaysInSession s (readStep P d c s) := by
  unfold readStep
  split
  · exact stop_stays _ s
  · split
    · exact ⟨h, rfl, rfl⟩
    · rename_i r connection _
      dsimp only
      split
      · rename_i f _
        have hstop :=
          stop_stays f (setClient c { s.clients c with incoming := connection.incoming } s)
        exact ⟨hstop.io, hstop.sessions, hstop.socket⟩
      · exact ⟨rfl, rfl, rfl⟩
      · exact ⟨rfl, rfl, rfl⟩

theorem replyStep_stays (X : Externals) (P : Peer) (str : Bytes) (c : C) (s : State C) :
    StaysInSession s (replyStep X P str c s) := by
  unfold replyStep
  split
  · exact stop_stays _ s
  · exact ⟨rfl, rfl, rfl⟩

/-- The session is never left but by an abort: its destructor finds the flag as
the constructor has set it. -/
theorem ioStep_stays (X : Externals) (P : Peer) {s : State C} (h : s.io.inSession = true)
    (hsessions : s.sessions = [{ socket_ := s.socket }]) :
    StaysInSession s (ioStep X P s) := by
  unfold ioStep
  cases hio : s.io with
  | arming => simp [hio, IoPc.inSession] at h
  | polling => simp [hio, IoPc.inSession] at h
  | handling => simp [hio, IoPc.inSession] at h
  | reading d =>
    dsimp only
    split
    · exact readStep_stays P d _ h
    · exact ⟨h, rfl, rfl⟩
  | replying str =>
    dsimp only
    split
    · exact replyStep_stays X P str _ s
    · exact ⟨h, rfl, rfl⟩
  | returned =>
    rw [hsessions]
    exact ⟨rfl, hsessions.symm ▸ rfl, rfl⟩
  | aborted a => exact ⟨h, rfl, rfl⟩

/-! ### Runs -/

theorem idle_step {l : Label C} {s : State C} (h : Idle s) (hl : l ≠ .accept) :
    Idle ((server X C).update l s) := by
  cases l with
  | connect c => exact ⟨h.io, h.sessions⟩
  | send c bytes => exact ⟨h.io, h.sessions⟩
  | disconnect c => exact ⟨h.io, h.sessions⟩
  | accept => exact absurd rfl hl
  | acceptError => exact ⟨Or.inl rfl, h.sessions⟩
  | io P =>
    rcases h.io with hio | hio
    · refine ⟨Or.inr ?_, ?_⟩
      · simp [server, ioStep, hio]
      · simpa [server, ioStep, hio] using h.sessions
    · refine ⟨Or.inr ?_, ?_⟩
      · simp [server, ioStep, hio]
      · simpa [server, ioStep, hio] using h.sessions

omit [DecidableEq C] in
/-- Clients do not move the thread. -/
theorem Busy.congr {s s' : State C} (h : Busy s) (hio : s'.io = s.io)
    (hsessions : s'.sessions = s.sessions) (hsocket : s'.socket = s.socket) : Busy s' := by
  cases h with
  | handling hhandling hnone => exact .handling (hio.trans hhandling) (hsessions.trans hnone)
  | inSession hin hone =>
    refine .inSession ?_ ?_
    · rwa [hio]
    · rw [hsessions, hone, hsocket]

omit [DecidableEq C] in
theorem Busy.not_polling {s : State C} (h : Busy s) : s.io ≠ .polling := by
  intro hio
  cases h with
  | handling hhandling => simp [hio] at hhandling
  | inSession hin => simp [hio, IoPc.inSession] at hin

theorem busy_step {l : Label C} {s : State C} (h : Busy s) (hg : (server X C).guard l s) :
    Busy ((server X C).update l s) := by
  cases l with
  | connect c => exact h.congr rfl rfl rfl
  | send c bytes => exact h.congr rfl rfl rfl
  | disconnect c => exact h.congr rfl rfl rfl
  | accept => exact absurd hg.1 h.not_polling
  | acceptError => exact absurd hg h.not_polling
  | io P =>
    cases h with
    | handling hio hsessions =>
      refine .inSession ?_ ?_
      · simp [server, ioStep, hio, IoPc.inSession]
      · simp [server, ioStep, hio, hsessions]
    | inSession hio hsessions =>
      have hstays := ioStep_stays X P hio hsessions
      have hsame : (ioStep X P s).sessions = [{ socket_ := (ioStep X P s).socket }] := by
        rw [hstays.sessions, hsessions, hstays.socket]
      exact .inSession hstays.io hsame

/-- Step and run lemma in one: before the first accept the server is idle, from
then on it is busy. -/
theorem run_cases {tr : List (State C × Label C)} {s : State C} (h : Run (server X C) tr s) :
    (∀ p ∈ tr, p.2 ≠ .accept) ∧ Idle s ∨ (∃ p ∈ tr, p.2 = .accept) ∧ Busy s := by
  induction h with
  | start hs =>
    cases hs
    exact Or.inl ⟨by simp, Or.inl rfl, rfl⟩
  | @next tr s l _ hg ih =>
    rcases ih with ⟨htr, hidle⟩ | ⟨⟨p, hp, hpa⟩, hbusy⟩
    · by_cases hl : l = .accept
      · subst hl
        refine Or.inr ⟨⟨(s, .accept), by simp, rfl⟩, .handling rfl hidle.sessions⟩
      · refine Or.inl ⟨?_, idle_step hidle hl⟩
        exact List.forall_mem_append.mpr ⟨htr, List.forall_mem_singleton.mpr hl⟩
    · exact Or.inr ⟨⟨p, List.mem_append_left _ hp, hpa⟩, busy_step hbusy hg⟩

theorem canAccept_of_idle {s : State C} (h : Idle s) : CanAccept X s := by
  rcases h.io with hio | hio
  · refine ⟨[Peer.quiet false fun _ => 0], ⟨?_, trivial⟩, ?_⟩
    · simp [server, ioReady, hio]
    · simp [after, server, ioStep, hio]
  · exact ⟨[], trivial, hio⟩

/-- A busy server never comes to wait for a connection, whatever it reads. -/
theorem not_canAccept_of_busy {s : State C} (h : Busy s) : ¬ CanAccept X s := by
  intro hcan
  rcases hcan with ⟨Ps, hfires, hio⟩
  induction Ps generalizing s with
  | nil => exact h.not_polling hio
  | cons P Ps ih => exact ih (busy_step h hfires.1) hfires.2 hio

/-- There is one session at most, and it has the socket of the server. -/
theorem socketsApart_of_run {tr : List (State C × Label C)} {s : State C}
    (h : Run (server X C) tr s) : SocketsApart s := by
  rcases run_cases h with ⟨-, hidle⟩ | ⟨-, hbusy⟩
  · simp [SocketsApart, hidle.sessions]
  · cases hbusy with
    | handling _ hsessions => simp [SocketsApart, hsessions]
    | inSession _ hsessions => simp [SocketsApart, hsessions]

/-- **Serving many clients.** At the end of a run the server can accept a
further connection, and its sessions have sockets of their own, exactly when no
client has been accepted so far. -/
theorem serves_many_iff {tr : List (State C × Label C)} {s : State C}
    (h : Run (server X C) tr s) :
    CanAccept X s ∧ SocketsApart s ↔ ∀ p ∈ tr, p.2 ≠ .accept := by
  constructor
  · intro hboth
    rcases run_cases h with ⟨htr, -⟩ | ⟨-, hbusy⟩
    · exact htr
    · exact absurd hboth.1 (not_canAccept_of_busy hbusy)
  · intro htr
    rcases run_cases h with ⟨-, hidle⟩ | ⟨⟨p, hp, hpa⟩, -⟩
    · exact ⟨canAccept_of_idle hidle, socketsApart_of_run h⟩
    · exact absurd hpa (htr p hp)

theorem serves_many_two :
    let X : Externals := { parse := fun _ => none, stdHash := fun _ => 0 }
    let ls : List (Label Bool) :=
      [.io (Peer.quiet false fun _ => 0), .connect false, .connect true]
    CanAccept X (after (server X Bool) ls {}) ∧ SocketsApart (after (server X Bool) ls {}) ↔
      ∀ p ∈ trace (server X Bool) ls {}, p.2 ≠ .accept := by
  intro X ls
  exact serves_many_iff (run_of_fires rfl (by decide))

/-- Two clients connect and the first is accepted. The thread waits for its
bytes, with the second in the backlog for good. -/
theorem second_client_waits :
    let X : Externals := { parse := fun _ => none, stdHash := fun _ => 0 }
    let ls : List (Label Bool) :=
      [.io (Peer.quiet false fun _ => 0), .connect false, .connect true, .accept,
        .io (Peer.quiet false fun _ => 0)]
    let s := after (server X Bool) ls {}
    Run (server X Bool) (trace (server X Bool) ls {}) s ∧ s.io = .reading 10 ∧
      s.backlog = [true] ∧ ¬ CanAccept X s := by
  intro X ls s
  exact ⟨run_of_fires rfl (by decide), by decide, by decide,
    not_canAccept_of_busy (.inSession (by decide) (by decide))⟩

end Serving

end Server

end PicoDB
