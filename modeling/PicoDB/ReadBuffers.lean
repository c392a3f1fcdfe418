import PicoDB.Lib.Lts
import PicoDB.Session
import PicoDB.Vector

/-!
# PicoDB.ReadBuffers — the buffers of `asyncReader`

Every call of `readOneBuffer` gets a buffer from its `asyncReader`, which keeps
it in `singleBufferList` until the call gives it back. The calls nest: the read
of a body runs inside the read of its header. Here the loops take one step
after the other, with the calls on a stack.

* `readOneBuffer_arrives`: these are the calls of `PicoDB.readOneBuffer`.
* `Session.loop_turns`, `Driver.loop_turn`: what becomes of their messages.
* `buffers_of_calls`: at every point of a run the list has the buffers of the
  calls on the stack, which `ConcurrentVector::remove` is good enough for: no
  buffer is there twice.
-/

namespace PicoDB.ReadBuffers

open ConcurrentVector Lts

/-! ## State -/

/-- A loop that reads and writes by turns; `σ` is the world it does so in. -/
structure Loop (σ : Type) where
  sizeToRead : Int → Except Fault Nat
  socket : Socket σ
  /-- what becomes of a message that is complete -/
  deliver : Bytes → σ → Except Fault σ
  /-- `writeOneBuffer`; `none` is one that waits for something to write -/
  write : σ → Option (Except Fault σ)
  writesFirst : Bool

/-- Where a call of `readOneBuffer` is; `buf` is the address of its
`currentBuffer`. -/
inductive ReadCall where
  /-- at the assertion -/
  | entering (dataSizeToReadNext : Int)
  /-- in `read_some` -/
  | reading (buf n : Nat)
  /-- in `processTheBufferJustRead` -/
  | processing (buf : Nat) (r : ReadSome)
  | handing (buf : Nat) (str : Bytes)
  /-- in the call that `processTheBufferJustRead` ends in -/
  | nesting (buf : Nat)
  /-- at `returnTheBuffer` -/
  | returning (buf : Nat)
deriving DecidableEq, Repr

/-- The buffer a call has got, and has still to give back. -/
def ReadCall.buffer : ReadCall → Option Nat
  | entering _ => none
  | reading buf _ => some buf
  | processing buf _ => some buf
  | handing buf _ => some buf
  | nesting buf => some buf
  | returning buf => some buf

/-- Where the loop is. -/
inductive Pc where
  | head
  | writing
  /-- in `readOneBuffer(10)` -/
  | reading
  | stopped (f : Fault)
deriving DecidableEq, Repr

structure State (σ : Type) where
  pc : Pc := .head
  /-- the calls of `readOneBuffer` on the stack, the innermost first -/
  stack : List ReadCall := []
  /-- `asyncReader_.singleBufferList`, as addresses -/
  singleBufferList : List Nat := []
  world : σ

variable {σ : Type}

/-- The buffers of the calls on the stack, the outermost first. -/
def State.buffers (s : State σ) : List Nat := (s.stack.filterMap ReadCall.buffer).reverse

/-! ## Steps -/

/-- `getOneBuffer`, where `new` gives the address `fresh`. -/
def getOneBuffer (fresh : Nat) (s : State σ) : State σ :=
  { s with singleBufferList := pushBack fresh s.singleBufferList }

/-- `returnTheBuffer`. -/
def returnTheBuffer (currentBuffer : Nat) (s : State σ) : State σ :=
  { s with singleBufferList := remove (· == currentBuffer) s.singleBufferList }

/-- The loop calls `readOneBuffer(10)`. -/
def callRead (s : State σ) : State σ := { s with pc := .reading, stack := [.entering 10] }

/-- The calls on the stack are left without coming back. -/
def stop (f : Fault) (s : State σ) : State σ := { s with pc := .stopped f, stack := [] }

/-- The innermost call comes back, to the call around it or to the loop. -/
def comeBack (L : Loop σ) (outer : List ReadCall) (s : State σ) : State σ :=
  match outer with
  | .nesting buf :: outer => { s with stack := .returning buf :: outer }
  | _ => { s with stack := outer, pc := if L.writesFirst then .head else .writing }

/-- The innermost call goes on. -/
def callStep (L : Loop σ) (fresh : Nat) (s : State σ) : State σ :=
  match s.stack with
  | [] => s
  | .entering dataSizeToReadNext :: outer =>
    match L.sizeToRead dataSizeToReadNext with
    -- the assertion comes before `getOneBuffer`, the allocation after it
    | .error (.assertion a) => stop (.assertion a) s
    | .error (.exception e) => stop (.exception e) (getOneBuffer fresh s)
    | .ok n => { getOneBuffer fresh s with stack := .reading fresh n :: outer }
  | .reading buf n :: outer =>
    match L.socket n s.world with
    | none => s
    | some (r, world) => { s with world, stack := .processing buf r :: outer }
  | .processing buf r :: outer =>
    match r.verdict with
    | .error f => stop f s
    | .ok (.readNext d) => { s with stack := .entering d :: .nesting buf :: outer }
    | .ok (.message str) => { s with stack := .handing buf str :: outer }
  | .handing buf str :: outer =>
    match L.deliver str s.world with
    | .error f => stop f s
    | .ok world => { s with world, stack := .returning buf :: outer }
  | .nesting _ :: _ => s
  | .returning buf :: outer => comeBack L outer (returnTheBuffer buf s)

/-- The loop goes on. -/
def step (L : Loop σ) (fresh : Nat) (s : State σ) : State σ :=
  match s.pc with
  | .head => if L.writesFirst then { s with pc := .writing } else callRead s
  | .writing =>
    match L.write s.world with
    | none => s
    | some (.error f) => stop f s
    | some (.ok world) =>
      if L.writesFirst then callRead { s with world } else { s with world, pc := .head }
  | .reading => callStep L fresh s
  | .stopped _ => s

/-- The loop can go on: it is not stopped, and waits neither for something to
write nor for something to read. -/
def ready (L : Loop σ) (s : State σ) : Bool :=
  match s.pc, s.stack with
  | .head, _ => true
  | .writing, _ => (L.write s.world).isSome
  | .reading, .reading _ n :: _ => (L.socket n s.world).isSome
  | .reading, _ => true
  | .stopped _, _ => false

/-- No buffer is at this address. -/
def Fresh (fresh : Nat) (s : State σ) : Prop :=
  fresh ∉ s.singleBufferList ∧ ∀ call ∈ s.stack, call.buffer ≠ some fresh

instance (fresh : Nat) (s : State σ) : Decidable (Fresh fresh s) :=
  inferInstanceAs (Decidable (fresh ∉ s.singleBufferList ∧
    ∀ call ∈ s.stack, call.buffer ≠ some fresh))

/-- What can happen next. -/
inductive Label (σ : Type) where
  /-- the loop goes on; the next `new` gives the address `fresh` -/
  | step (fresh : Nat)
  /-- the rest of the world does, the other side or another thread -/
  | outside (world : σ)

/-- The loop at work, in any world. -/
def machine (L : Loop σ) : System (State σ) (Label σ) where
  Init s := s = { world := s.world }
  guard
    | .step fresh, s => ready L s = true ∧ Fresh fresh s
    | .outside _, _ => True
  update
    | .step fresh, s => step L fresh s
    | .outside world, s => { s with world }

instance (L : Loop σ) (l : Label σ) (s : State σ) : Decidable ((machine L).guard l s) :=
  match l with
  | .step fresh => inferInstanceAs (Decidable (ready L s = true ∧ Fresh fresh s))
  | .outside _ => .isTrue trivial

/-! ## The invariant -/

/-- The loop has not come to its end. -/
def Running (s : State σ) : Prop := ∀ f, s.pc ≠ .stopped f

/-- Every call but the innermost is in the call inside it. -/
def Within (outer : List ReadCall) : Prop := ∀ call ∈ outer, ∃ buf, call = .nesting buf

structure Inv (s : State σ) : Prop where
  buffers : Running s → s.singleBufferList = s.buffers
  nodup : Running s → s.singleBufferList.Nodup
  idle : s.pc ≠ .reading → s.stack = []
  nested : Within s.stack.tail

theorem not_running_stop (f : Fault) (s : State σ) : ¬Running (stop f s) := fun h => h f rfl

theorem inv_stop (f : Fault) (s : State σ) : Inv (stop f s) where
  buffers h := absurd h (not_running_stop f s)
  nodup h := absurd h (not_running_stop f s)
  idle _ := rfl
  nested := by simp [stop, Within]

theorem running_of_reading {s : State σ} (h : s.pc = .reading) : Running s := by
  intro f hf
  rw [h] at hf
  cases hf

/-- Without a call on the stack there is no buffer. -/
theorem buffers_of_stack_nil {s : State σ} (h : s.stack = []) : s.buffers = [] := by
  simp [State.buffers, h]

theorem buffers_of_stack_cons {s : State σ} {call : ReadCall} {outer : List ReadCall}
    (h : s.stack = call :: outer) :
    s.buffers = (outer.filterMap ReadCall.buffer).reverse ++ call.buffer.toList := by
  rw [State.buffers, h]
  cases hb : call.buffer <;> simp [hb]

/-- `remove` of the last of distinct buffers. -/
theorem remove_last {buf : Nat} {l : List Nat} (h : (l ++ [buf]).Nodup) :
    remove (· == buf) (l ++ [buf]) = l := by
  have hl : ∀ x ∈ l, x ≠ buf := fun x hx =>
    (List.nodup_append.mp h).2.2 x hx buf (List.mem_singleton_self buf)
  have hfilter : remove (· == buf) (l ++ [buf]) = (l ++ [buf]).filter fun x => !(x == buf) :=
    remove_eq_filter_of_nodup id buf (by rwa [List.map_id])
  rw [hfilter, List.filter_append, List.filter_eq_self.mpr]
  · simp
  · intro x hx
    simpa using hl x hx

/-- A step in a call that neither gets a buffer nor gives one back. -/
theorem Inv.keep {s s' : State σ} (hs : Inv s) (hpc : s.pc = .reading) (hpc' : s'.pc = .reading)
    (hlist : s'.singleBufferList = s.singleBufferList) (hbuffers : s'.buffers = s.buffers)
    (hnested : Within s'.stack.tail) : Inv s' := by
  have hrun := running_of_reading hpc
  constructor
  · intro _
    rw [hlist, hbuffers]
    exact hs.buffers hrun
  · intro _
    rw [hlist]
    exact hs.nodup hrun
  · intro h
    exact absurd hpc' h
  · exact hnested

/-- A call that gets its buffer. -/
theorem Inv.push {s : State σ} {d : Int} {outer : List ReadCall} {fresh n : Nat} (hs : Inv s)
    (hpc : s.pc = .reading) (hstack : s.stack = .entering d :: outer) (hfresh : Fresh fresh s) :
    Inv { getOneBuffer fresh s with stack := .reading fresh n :: outer } := by
  have hrun := running_of_reading hpc
  have hlist : s.singleBufferList = (outer.filterMap ReadCall.buffer).reverse := by
    rw [hs.buffers hrun, buffers_of_stack_cons hstack]
    simp [ReadCall.buffer]
  constructor
  · intro _
    rw [buffers_of_stack_cons rfl]
    simp [getOneBuffer, pushBack, hlist, ReadCall.buffer]
  · intro _
    simp only [getOneBuffer, pushBack, List.nodup_append, List.mem_singleton]
    refine ⟨hs.nodup hrun, List.nodup_singleton fresh, ?_⟩
    -- the address is that of no buffer that is kept
    intro a ha b hb hab
    exact hfresh.1 (hb ▸ hab ▸ ha)
  · intro h
    exact absurd hpc h
  · have hnested := hs.nested
    rw [hstack] at hnested
    exact hnested

/-- A call that gives its buffer back. -/
theorem Inv.pop (L : Loop σ) {s : State σ} {buf : Nat} {outer : List ReadCall} (hs : Inv s)
    (hpc : s.pc = .reading) (hstack : s.stack = .returning buf :: outer) :
    Inv (comeBack L outer (returnTheBuffer buf s)) := by
  have hrun := running_of_reading hpc
  have hlist : s.singleBufferList = (outer.filterMap ReadCall.buffer).reverse ++ [buf] := by
    rw [hs.buffers hrun, buffers_of_stack_cons hstack]
    rfl
  have hnodup := hs.nodup hrun
  have hnested := hs.nested
  rw [hlist] at hnodup
  rw [hstack] at hnested
  have hleft : (returnTheBuffer buf s).singleBufferList =
      (outer.filterMap ReadCall.buffer).reverse := by
    simp only [returnTheBuffer]
    rw [hlist, remove_last hnodup]
  have hleft_nodup := hnodup.of_append_left
  rw [← hleft] at hleft_nodup
  cases outer with
  | nil =>
    have hempty : (returnTheBuffer buf s).singleBufferList = [] := by simpa using hleft
    constructor
    · intro _
      rw [buffers_of_stack_nil rfl]
      exact hempty
    · intro _
      exact hleft_nodup
    · intro _
      rfl
    · simp [comeBack, Within]
  | cons call outer =>
    obtain ⟨buf', rfl⟩ := hnested call List.mem_cons_self
    constructor
    · intro _
      rw [buffers_of_stack_cons rfl]
      simpa [comeBack, ReadCall.buffer] using hleft
    · intro _
      exact hleft_nodup
    · intro h
      exact absurd hpc h
    · intro call hcall
      exact hnested call (List.mem_cons_of_mem _ hcall)

theorem inv_callStep {L : Loop σ} {fresh : Nat} {s : State σ} (hs : Inv s)
    (hpc : s.pc = .reading) (hfresh : Fresh fresh s) : Inv (callStep L fresh s) := by
  have hnested := hs.nested
  cases hstack : s.stack with
  | nil => simpa [callStep, hstack] using hs
  | cons call outer =>
    rw [hstack, List.tail_cons] at hnested
    cases call with
    | entering d =>
      cases hsize : L.sizeToRead d with
      | error f =>
        cases f with
        | assertion a => simpa [callStep, hstack, hsize] using inv_stop _ s
        | exception e => simpa [callStep, hstack, hsize] using inv_stop _ (getOneBuffer fresh s)
      | ok n => simpa [callStep, hstack, hsize] using hs.push (n := n) hpc hstack hfresh
    | reading buf n =>
      cases hread : L.socket n s.world with
      | none => simpa [callStep, hstack, hread] using hs
      | some got =>
        simp only [callStep, hstack, hread]
        exact hs.keep hpc hpc rfl (by simp [State.buffers, hstack, ReadCall.buffer]) hnested
    | processing buf r =>
      cases hv : r.verdict with
      | error f => simpa [callStep, hstack, hv] using inv_stop f s
      | ok v =>
        cases v with
        | message str =>
          simp only [callStep, hstack, hv]
          exact hs.keep hpc hpc rfl (by simp [State.buffers, hstack, ReadCall.buffer]) hnested
        | readNext d =>
          -- the inner call has no buffer yet
          simp only [callStep, hstack, hv]
          have hbuffers : (List.filterMap ReadCall.buffer (.entering d :: .nesting buf :: outer)) =
              List.filterMap ReadCall.buffer (.processing buf r :: outer) := rfl
          refine hs.keep hpc hpc rfl (by rw [State.buffers, State.buffers, hbuffers, hstack]) ?_
          exact List.forall_mem_cons.mpr ⟨⟨buf, rfl⟩, hnested⟩
    | handing buf str =>
      cases hd : L.deliver str s.world with
      | error f => simpa [callStep, hstack, hd] using inv_stop f s
      | ok world =>
        simp only [callStep, hstack, hd]
        exact hs.keep hpc hpc rfl (by simp [State.buffers, hstack, ReadCall.buffer]) hnested
    | nesting buf => simpa [callStep, hstack] using hs
    | returning buf =>
      simp only [callStep, hstack]
      exact hs.pop L hpc hstack

/-- Between the calls there are no buffers. -/
theorem Inv.singleBufferList_eq_nil {s : State σ} (hs : Inv s) (hrun : Running s)
    (hpc : s.pc ≠ .reading) : s.singleBufferList = [] := by
  rw [hs.buffers hrun, buffers_of_stack_nil (hs.idle hpc)]

theorem inv_of_idle {s : State σ} (hlist : s.singleBufferList = []) (hstack : s.stack = []) :
    Inv s where
  buffers _ := by rw [hlist, buffers_of_stack_nil hstack]
  nodup _ := by simp [hlist]
  idle _ := hstack
  nested := by simp [hstack, Within]

theorem inv_callRead {s : State σ} (hlist : s.singleBufferList = []) : Inv (callRead s) where
  buffers _ := hlist
  nodup _ := by simp [callRead, hlist]
  idle h := absurd rfl h
  nested := by simp [callRead, Within]

theorem inv_step {L : Loop σ} {fresh : Nat} {s : State σ} (hs : Inv s) (hfresh : Fresh fresh s) :
    Inv (step L fresh s) := by
  cases hpc : s.pc with
  | head =>
    have hne : s.pc ≠ .reading := by simp [hpc]
    have hlist := hs.singleBufferList_eq_nil (by simp [Running, hpc]) hne
    simp only [step, hpc]
    split
    · exact inv_of_idle hlist (hs.idle hne)
    · exact inv_callRead hlist
  | writing =>
    have hne : s.pc ≠ .reading := by simp [hpc]
    have hlist := hs.singleBufferList_eq_nil (by simp [Running, hpc]) hne
    simp only [step, hpc]
    split
    · exact hs
    · exact inv_stop _ s
    · split
      · exact inv_callRead hlist
      · exact inv_of_idle hlist (hs.idle hne)
  | reading =>
    simp only [step, hpc]
    exact inv_callStep hs hpc hfresh
  | stopped f => simpa [step, hpc] using hs

theorem init_inv {L : Loop σ} {s : State σ} (h : (machine L).Init s) : Inv s := by
  have hs : s = { world := s.world } := h
  rw [hs]
  exact inv_of_idle rfl rfl

theorem run_inv {L : Loop σ} {tr : List (State σ × Label σ)} {s : State σ}
    (h : Run (machine L) tr s) : Inv s := by
  refine run_invariant Inv (fun _ h0 => init_inv h0) ?_ h
  intro l s hg hs
  cases l with
  | step fresh => exact inv_step hs hg.2
  | outside world => exact ⟨hs.buffers, hs.nodup, hs.idle, hs.nested⟩

/-- What is said of `singleBufferList` at a point of a run: it has the buffers
of the calls on the stack, each once and in the order of the calls, and none
when the loop is back at its head. -/
structure Accounted (s : State σ) : Prop where
  buffers : s.singleBufferList = s.buffers
  nodup : s.singleBufferList.Nodup
  head : s.pc = .head → s.stack = [] ∧ s.singleBufferList = []

theorem Inv.accounted {s : State σ} (hs : Inv s) (hrun : Running s) : Accounted s where
  buffers := hs.buffers hrun
  nodup := hs.nodup hrun
  head h :=
    have hne : s.pc ≠ .reading := by simp [h]
    ⟨hs.idle hne, hs.singleBufferList_eq_nil hrun hne⟩

/-! ## The calls are those of `readOneBuffer` -/

section Simulation

variable {L : Loop σ}

theorem exists_fresh (s : State σ) : ∃ fresh, Fresh fresh s := by
  obtain ⟨fresh, hfresh⟩ := Infinite.exists_notMem_finset
    (s.singleBufferList ++ s.stack.filterMap ReadCall.buffer).toFinset
  simp only [List.mem_toFinset, List.mem_append, List.mem_filterMap, not_or, not_exists,
    not_and] at hfresh
  exact ⟨fresh, hfresh.1, hfresh.2⟩

theorem leads_step {s : State σ} (hready : ready L s = true) :
    ∃ fresh, Leads (machine L) s (step L fresh s) := by
  obtain ⟨fresh, hfresh⟩ := exists_fresh s
  have hguard : (machine L).guard (.step fresh) s := ⟨hready, hfresh⟩
  exact ⟨fresh, leads_of_guard hguard⟩

theorem leads_callStep {s : State σ} (hpc : s.pc = .reading) (hready : ready L s = true) :
    ∃ fresh, Leads (machine L) s (callStep L fresh s) := by
  obtain ⟨fresh, hleads⟩ := leads_step hready
  simp only [step, hpc] at hleads
  exact ⟨fresh, hleads⟩

/-- The calls that have `bufs` nest around the innermost one. -/
def around (bufs : List Nat) (outer : List ReadCall) : List ReadCall :=
  bufs.reverse.map .nesting ++ outer

/-- The point of a run at which calls end as they do, begun with `list` in
`singleBufferList`: each of the reads has left one buffer there. -/
def Arrives (L : Loop σ) (outer : List ReadCall) (list : List Nat) (s : State σ) :
    List ReadStep × CallEnd σ → Prop
  | (steps, .message str world) => ∃ bufs buf, bufs.length + 1 = steps.length ∧
      s = ⟨.reading, .handing buf str :: around bufs outer, list ++ bufs ++ [buf], world⟩
  | (steps, .waits world) => ∃ bufs buf n, bufs.length + 1 = steps.length ∧
      L.socket n world = none ∧
      s = ⟨.reading, .reading buf n :: around bufs outer, list ++ bufs ++ [buf], world⟩
  | (_, .stops f) => s.pc = .stopped f
  | (_, .tooDeep) => True

theorem leads_entering_error {d : Int} {outer : List ReadCall} {list : List Nat} {world : σ}
    {f : Fault} (h : L.sizeToRead d = .error f) :
    ∃ s, Leads (machine L) ⟨.reading, .entering d :: outer, list, world⟩ s ∧
      s.pc = .stopped f := by
  obtain ⟨fresh, hleads⟩ := leads_callStep (L := L)
    (s := ⟨.reading, .entering d :: outer, list, world⟩) rfl rfl
  refine ⟨_, hleads, ?_⟩
  cases f <;> simp [callStep, h, stop]

theorem leads_entering {d : Int} {n : Nat} (h : L.sizeToRead d = .ok n) (outer : List ReadCall)
    (list : List Nat) (world : σ) :
    ∃ buf, Leads (machine L) ⟨.reading, .entering d :: outer, list, world⟩
      ⟨.reading, .reading buf n :: outer, list ++ [buf], world⟩ := by
  obtain ⟨fresh, hleads⟩ := leads_callStep (L := L)
    (s := ⟨.reading, .entering d :: outer, list, world⟩) rfl rfl
  simp only [callStep, h, getOneBuffer, pushBack] at hleads
  exact ⟨fresh, hleads⟩

theorem leads_reading {buf n : Nat} {outer : List ReadCall} {list : List Nat} {world world' : σ}
    {r : ReadSome} (h : L.socket n world = some (r, world')) :
    Leads (machine L) ⟨.reading, .reading buf n :: outer, list, world⟩
      ⟨.reading, .processing buf r :: outer, list, world'⟩ := by
  obtain ⟨fresh, hleads⟩ := leads_callStep (L := L)
    (s := ⟨.reading, .reading buf n :: outer, list, world⟩) rfl (by simp [ready, h])
  simp only [callStep, h] at hleads
  exact hleads

/-- A call whose `read_some` comes back, up to what its buffer is taken for. -/
theorem leads_verdict {d : Int} {world world' : σ} {n : Nat} {r : ReadSome}
    (hsize : L.sizeToRead d = .ok n) (hread : L.socket n world = some (r, world'))
    (outer : List ReadCall) (list : List Nat) :
    ∃ buf, Leads (machine L) ⟨.reading, .entering d :: outer, list, world⟩
      (match r.verdict with
        | .error f => ⟨.stopped f, [], list ++ [buf], world'⟩
        | .ok (.readNext m) =>
          ⟨.reading, .entering m :: .nesting buf :: outer, list ++ [buf], world'⟩
        | .ok (.message str) => ⟨.reading, .handing buf str :: outer, list ++ [buf], world'⟩) := by
  obtain ⟨buf, henter⟩ := leads_entering hsize outer list world
  obtain ⟨fresh, hprocess⟩ := leads_callStep (L := L)
    (s := ⟨.reading, .processing buf r :: outer, list ++ [buf], world'⟩) rfl rfl
  simp only [callStep, stop] at hprocess
  exact ⟨buf, (henter.trans (leads_reading hread)).trans hprocess⟩

theorem around_cons (buf : Nat) (bufs : List Nat) (outer : List ReadCall) :
    around (buf :: bufs) outer = around bufs (.nesting buf :: outer) := by
  simp [around]

theorem arrives_cons {outer : List ReadCall} {list : List Nat} {buf : Nat} {s : State σ}
    {step : ReadStep} {result : List ReadStep × CallEnd σ}
    (h : Arrives L (.nesting buf :: outer) (list ++ [buf]) s result) :
    Arrives L outer list s (step :: result.1, result.2) := by
  rcases result with ⟨steps, ending⟩
  cases ending with
  | message str world =>
    rcases h with ⟨bufs, buf', hlen, hs⟩
    refine ⟨buf :: bufs, buf', by simp [← hlen], ?_⟩
    rw [hs, around_cons]
    simp
  | waits world =>
    rcases h with ⟨bufs, buf', n, hlen, hread, hs⟩
    refine ⟨buf :: bufs, buf', n, by simp [← hlen], hread, ?_⟩
    rw [hs, around_cons]
    simp
  | stops f => exact h
  | tooDeep => exact h

/-- A call goes through the machine the way `readOneBuffer` says. -/
theorem readOneBuffer_arrives (depth : Nat) (d : Int) (outer : List ReadCall) (list : List Nat)
    (world : σ) :
    ∃ s, Leads (machine L) ⟨.reading, .entering d :: outer, list, world⟩ s ∧
      Arrives L outer list s (readOneBuffer L.sizeToRead L.socket depth d world) := by
  induction depth generalizing d outer list world with
  | zero => exact ⟨_, .refl, trivial⟩
  | succ depth ih =>
    cases callCases L.sizeToRead L.socket d world with
    | refused hsize =>
      rw [readOneBuffer_refused hsize]
      exact leads_entering_error hsize
    | waits hsize hread =>
      rw [readOneBuffer_waits hsize hread]
      obtain ⟨buf, henter⟩ := leads_entering hsize outer list world
      exact ⟨_, henter, [], buf, _, rfl, hread, by simp [around]⟩
    | @fault n r world' f hsize hread hv =>
      rw [readOneBuffer_fault hsize hread hv]
      obtain ⟨buf, htaken⟩ := leads_verdict hsize hread outer list
      rw [hv] at htaken
      exact ⟨_, htaken, rfl⟩
    | @message n r world' str hsize hread hv =>
      rw [readOneBuffer_message hsize hread hv]
      obtain ⟨buf, htaken⟩ := leads_verdict hsize hread outer list
      rw [hv] at htaken
      exact ⟨_, htaken, [], buf, rfl, by simp [around]⟩
    | @readNext n r world' m hsize hread hv =>
      rw [readOneBuffer_readNext hsize hread hv]
      obtain ⟨buf, htaken⟩ := leads_verdict hsize hread outer list
      rw [hv] at htaken
      -- the inner call finds one buffer more, and one call more around it
      obtain ⟨s, hinner, harrives⟩ := ih m (.nesting buf :: outer) (list ++ [buf]) world'
      exact ⟨s, htaken.trans hinner, arrives_cons harrives⟩

/-- The calls come back one after the other. -/
theorem leads_returning (bufs : List Nat) (buf : Nat) (list : List Nat) (world : σ) :
    ∃ list', Leads (machine L) ⟨.reading, .returning buf :: bufs.map .nesting, list, world⟩
      ⟨if L.writesFirst then .head else .writing, [], list', world⟩ := by
  induction bufs generalizing buf list with
  | nil =>
    obtain ⟨fresh, hleads⟩ := leads_callStep (L := L)
      (s := ⟨.reading, [.returning buf], list, world⟩) rfl rfl
    exact ⟨_, hleads⟩
  | cons buf' bufs ih =>
    obtain ⟨fresh, hleads⟩ := leads_callStep (L := L)
      (s := ⟨.reading, .returning buf :: .nesting buf' :: bufs.map .nesting, list, world⟩) rfl rfl
    obtain ⟨list', hrest⟩ := ih buf' (remove (· == buf) list)
    exact ⟨list', hleads.trans hrest⟩

/-- **A read that comes back.** When the call `readOneBuffer(10)` of the loop
ends with a message, and the message is taken, the loop goes on with no call
and no buffer left. -/
theorem read_comes_back {s : State σ} {depth : Nat} {steps : List ReadStep} {str : Bytes}
    {world world' : σ} (hs : Reachable (machine L) s) (hpc : s.pc = .reading)
    (hstack : s.stack = [.entering 10])
    (hcall : readOneBuffer L.sizeToRead L.socket depth 10 s.world = (steps, .message str world))
    (hdeliver : L.deliver str world = .ok world') :
    Leads (machine L) s ⟨if L.writesFirst then .head else .writing, [], [], world'⟩ := by
  rcases s with ⟨pc, stack, list, world₀⟩
  cases hpc
  cases hstack
  obtain ⟨s', hdown, harrives⟩ := readOneBuffer_arrives (L := L) depth 10 [] list world₀
  rw [hcall] at harrives
  rcases harrives with ⟨bufs, buf, -, rfl⟩
  rw [around, List.append_nil] at hdown
  obtain ⟨fresh, hhand⟩ := leads_callStep (L := L)
    (s := ⟨.reading, .handing buf str :: bufs.reverse.map .nesting, list ++ bufs ++ [buf], world⟩)
    rfl rfl
  simp only [callStep, hdeliver] at hhand
  obtain ⟨list', hup⟩ := leads_returning (L := L) bufs.reverse buf (list ++ bufs ++ [buf]) world'
  have hall := (hdown.trans hhand).trans hup
  -- nothing is left in the list, because no call is left on the stack
  rcases hs.leads hall with ⟨tr, hr⟩
  have hidle : (if L.writesFirst then Pc.head else Pc.writing) ≠ .reading := by split <;> simp
  have hrun : Running (σ := σ) ⟨if L.writesFirst then .head else .writing, [], list', world'⟩ := by
    intro f
    dsimp only
    split <;> simp
  have hnil : list' = [] := (run_inv hr).singleBufferList_eq_nil hrun hidle
  rw [hnil] at hall
  exact hall

end Simulation

end PicoDB.ReadBuffers

namespace PicoDB

open ConcurrentVector Lts ReadBuffers

/-! ## The two loops -/

/-- What a loop works in: its connection and its queues. -/
structure World (Q : Type) where
  connection : Connection
  queues : Q
deriving DecidableEq, Repr

/-- `read_some` leaves the queues alone. -/
def Peer.readSomeIn (P : Peer) (Q : Type) : Socket (World Q) := fun n w =>
  (P.readSome n w.connection).map fun got => (got.1, { w with connection := got.2 })

/-- `writeOneMessageToOtherSide`, or what stopped the write before. -/
def Peer.send {Q : Type} (P : Peer) (frame : Except Fault Frame) (w : World Q) :
    Except Fault (World Q) := do
  let frame ← frame
  let c := w.connection
  if P.takes c.calls then
    .ok { w with connection := { c with outgoing := c.outgoing ++ frame.bytes } }
  else .error (.exception .systemError)

/-- The loop of `pico_session::start`; its queue is `bufferQueue_`. -/
def Session.loop (X : Externals) (P : Peer) : Loop (World (List PicoRecord)) where
  sizeToRead := Session.sizeToRead
  socket := P.readSomeIn _
  -- `pico_message`, `processDataFromOtherSide` and `queueMessages`
  deliver str w := do
    let last_read_message ← PicoMessage.ofJson X str
    if last_read_message.toString = [] then .error (.assertion .replyNotEmpty)
    else
      let curBufPtr := last_read_message.getCompleteMessageInJsonAsOnBuffer
      .ok { w with queues := pushBack curBufPtr w.queues }
  write w :=
    match pop w.queues with
    | (none, _) => none
    | (some currentBuffer, bufferQueue_) =>
      let M := P.memory w.connection.calls
      some (P.send (writeOneBuffer P.dangling M currentBuffer) { w with queues := bufferQueue_ })
  writesFirst := false

/-- The queues of the driver. -/
structure Driver.Queues where
  bufferQueue : List PicoRecord
  responseQueue_ : List PicoMessage
deriving DecidableEq, Repr

/-- The loop of `PonocoDriver::start`. -/
def Driver.loop (X : Externals) (P : Peer) : Loop (World Driver.Queues) where
  sizeToRead := Driver.sizeToRead
  socket := P.readSomeIn _
  -- `pico_message`, `processDataFromOtherSide` and `queueTheResponse`
  deliver str w := do
    let last_read_message ← PicoMessage.ofJson X str
    let responseQueue_ := pushBack last_read_message w.queues.responseQueue_
    .ok { w with queues := { w.queues with responseQueue_ } }
  write w :=
    match pop w.queues.bufferQueue with
    | (none, _) => none
    | (some currentBuffer, bufferQueue) =>
      let M := P.memory w.connection.calls
      some (P.send (writeOneBuffer M currentBuffer)
        { w with queues := { w.queues with bufferQueue } })
  writesFirst := true

/-- The calls in a world are those on its connection. -/
theorem readOneBuffer_readSomeIn {Q : Type} (g : Int → Except Fault Nat) (P : Peer) (depth : Nat)
    (d : Int) (w : World Q) :
    readOneBuffer g (P.readSomeIn Q) depth d w =
      ((readOneBuffer g P.readSome depth d w.connection).1,
        (readOneBuffer g P.readSome depth d w.connection).2.map
          fun c => { w with connection := c }) := by
  induction depth generalizing d w with
  | zero => rfl
  | succ depth ih =>
    have hread_in : ∀ n, P.readSomeIn Q n w =
        (P.readSome n w.connection).map fun got => (got.1, { w with connection := got.2 }) :=
      fun _ => rfl
    cases callCases g P.readSome d w.connection with
    | refused hsize =>
      rw [readOneBuffer_refused hsize, readOneBuffer_refused hsize]
      rfl
    | waits hsize hread =>
      rw [readOneBuffer_waits hsize hread, readOneBuffer_waits hsize (by rw [hread_in, hread]; rfl)]
      rfl
    | fault hsize hread hv =>
      rw [readOneBuffer_fault hsize hread hv,
        readOneBuffer_fault hsize (by rw [hread_in, hread]; rfl) hv]
      rfl
    | message hsize hread hv =>
      rw [readOneBuffer_message hsize hread hv,
        readOneBuffer_message hsize (by rw [hread_in, hread]; rfl) hv]
      rfl
    | readNext hsize hread hv =>
      rw [readOneBuffer_readNext hsize hread hv,
        readOneBuffer_readNext hsize (by rw [hread_in, hread]; rfl) hv, ih]

/-- The answer a message gets is queued and then written. -/
theorem Session.loop_reply {X : Externals} {P : Peer} {str : Bytes} {c c' : Connection}
    (h : reply X P str c = .ok c') :
    ∃ w, (loop X P).deliver str ⟨c, []⟩ = .ok w ∧ (loop X P).write w = some (.ok ⟨c', []⟩) := by
  rcases bind_eq_ok h with ⟨m, hm, h⟩
  split at h
  · cases h
  · rename_i hne
    rcases bind_eq_ok h with ⟨frame, hframe, h⟩
    split at h
    · rename_i htakes
      cases h
      refine ⟨⟨c, [m.getCompleteMessageInJsonAsOnBuffer]⟩, ?_, ?_⟩
      · simp [loop, hm, hne, bind, Except.bind, pushBack]
      · rw [PicoMessage.ofString_json] at hframe
        simp [loop, pop, Peer.send, hframe, htakes, bind, Except.bind]
    · cases h

/-- One turn of the session's loop: a message is read and answered. -/
theorem Session.loop_turn {X : Externals} {P : Peer} {depth : Nat} {steps : List ReadStep}
    {str : Bytes} {c c' c'' : Connection}
    (hcall : readOneBuffer sizeToRead P.readSome depth 10 c = (steps, .message str c'))
    (hreply : reply X P str c' = .ok c'') :
    Leads (machine (loop X P)) ⟨.head, [], [], ⟨c, []⟩⟩ ⟨.head, [], [], ⟨c'', []⟩⟩ := by
  rcases loop_reply hreply with ⟨w, hdeliver, hwrite⟩
  -- the loop calls `readOneBuffer(10)`
  obtain ⟨_, hcalls⟩ := leads_step (L := loop X P) (s := ⟨.head, [], [], ⟨c, []⟩⟩) rfl
  have hstart : Reachable (machine (loop X P)) ⟨.head, [], [], ⟨c, []⟩⟩ := ⟨[], .start rfl⟩
  have hcall' : readOneBuffer (loop X P).sizeToRead (loop X P).socket depth 10 ⟨c, []⟩ =
      (steps, .message str ⟨c', []⟩) := by
    have hin := readOneBuffer_readSomeIn sizeToRead P depth 10 (⟨c, []⟩ : World (List PicoRecord))
    rw [hcall] at hin
    exact hin
  have hback := read_comes_back (hstart.leads hcalls) rfl rfl hcall' hdeliver
  -- and writes what was queued
  obtain ⟨_, hwrites⟩ := leads_step (L := loop X P) (s := ⟨.writing, [], [], w⟩)
    (by simp [ready, hwrite])
  simp only [step, hwrite] at hwrites
  exact (hcalls.trans hback).trans hwrites

/-- The messages of a session that are all answered are turns of its loop. -/
theorem Session.loop_turns {X : Externals} {P : Peer} {depth : Nat} (calls : Nat)
    {c c' : Connection}
    (h : (readCalls sizeToRead P.readSome (reply X P) depth calls c).ending = .returned c') :
    Leads (machine (loop X P)) ⟨.head, [], [], ⟨c, []⟩⟩ ⟨.head, [], [], ⟨c', []⟩⟩ := by
  induction calls generalizing c with
  | zero =>
    cases h
    exact .refl
  | succ calls ih =>
    rcases hcall : readOneBuffer sizeToRead P.readSome depth 10 c with ⟨steps, ending⟩
    cases ending with
    | message str c₁ =>
      rw [readCalls_message _ _ hcall] at h
      cases hreply : reply X P str c₁ with
      | error f =>
        rw [hreply] at h
        cases h
      | ok c₂ =>
        rw [hreply] at h
        exact (loop_turn hcall hreply).trans (ih h)
    | waits c₁ =>
      simp only [readCalls, hcall] at h
      cases h
    | stops f =>
      simp only [readCalls, hcall] at h
      cases h
    | tooDeep =>
      simp only [readCalls, hcall] at h
      cases h

/-- One turn of the driver's loop: a request is written, its reply is read and
queued. -/
theorem Driver.loop_turn {X : Externals} {P : Peer} {depth : Nat} {steps : List ReadStep}
    {str : Bytes} {c c' : Connection} {bufferQueue : List PicoRecord} {r : PicoRecord}
    {responseQueue_ : List PicoMessage} {frame : Frame} {m : PicoMessage}
    (hframe : writeOneBuffer (P.memory c.calls) r = .ok frame) (htakes : P.takes c.calls = true)
    (hcall : readOneBuffer sizeToRead P.readSome depth 10
      { c with outgoing := c.outgoing ++ frame.bytes } = (steps, .message str c'))
    (hjson : PicoMessage.ofJson X str = .ok m) :
    Leads (machine (loop X P)) ⟨.head, [], [], ⟨c, ⟨bufferQueue ++ [r], responseQueue_⟩⟩⟩
      ⟨.head, [], [], ⟨c', ⟨bufferQueue, responseQueue_ ++ [m]⟩⟩⟩ := by
  let w : World Queues := ⟨c, ⟨bufferQueue ++ [r], responseQueue_⟩⟩
  let w' : World Queues :=
    ⟨{ c with outgoing := c.outgoing ++ frame.bytes }, ⟨bufferQueue, responseQueue_⟩⟩
  have hwrite : (loop X P).write w = some (.ok w') := by
    simp [w, w', loop, pop, Peer.send, hframe, htakes, bind, Except.bind]
  -- the loop goes to `writeOneBuffer`, and from there calls `readOneBuffer(10)`
  obtain ⟨_, hhead⟩ := leads_step (L := loop X P) (s := ⟨.head, [], [], w⟩) rfl
  obtain ⟨_, hcalls⟩ := leads_step (L := loop X P) (s := ⟨.writing, [], [], w⟩)
    (by simp [ready, hwrite])
  simp only [step, hwrite] at hcalls
  have hstart : Reachable (machine (loop X P)) ⟨.head, [], [], w⟩ := ⟨[], .start rfl⟩
  have hdown := hhead.trans hcalls
  have hcall' : readOneBuffer (loop X P).sizeToRead (loop X P).socket depth 10 w' =
      (steps, .message str ⟨c', ⟨bufferQueue, responseQueue_⟩⟩) := by
    have hin := readOneBuffer_readSomeIn sizeToRead P depth 10 w'
    rw [hcall] at hin
    exact hin
  have hdeliver : (loop X P).deliver str ⟨c', ⟨bufferQueue, responseQueue_⟩⟩ =
      .ok ⟨c', ⟨bufferQueue, responseQueue_ ++ [m]⟩⟩ := by
    simp [loop, hjson, bind, Except.bind, pushBack]
  exact hdown.trans (read_comes_back (hstart.leads hdown) rfl rfl hcall' hdeliver)

/-! ## Main result -/

/-- **Read buffers.** At every point of every run of either loop, whatever the
other side sends and whatever happens elsewhere, `singleBufferList` has the
buffers of the calls on the stack, each once and from the outermost to the
innermost; and none whenever the loop is back at its head. -/
theorem buffers_of_calls (X : Externals) (P : Peer) :
    (∀ tr s, Run (machine (Session.loop X P)) tr s → Running s → Accounted s) ∧
      ∀ tr s, Run (machine (Driver.loop X P)) tr s → Running s → Accounted s :=
  ⟨fun _ _ h hrun => (run_inv h).accounted hrun, fun _ _ h hrun => (run_inv h).accounted hrun⟩

/-- A session in the read of a body, which runs inside that of its header. -/
theorem buffers_of_body_read :
    ∃ tr s, Run (machine (Session.loop ⟨fun _ => none, fun _ => 0⟩
        (Peer.quiet false fun _ => 10))) tr s ∧
      s.singleBufferList = [5, 7] ∧ Accounted s := by
  have hfires : Fires (machine (Session.loop ⟨fun _ => none, fun _ => 0⟩
        (Peer.quiet false fun _ => 10)))
      [.step 5, .step 5, .step 6, .step 6, .step 7, .step 8]
      { world := ⟨⟨ascii "####3" ++ [0, 0, 0, 0, 0] ++ ascii "abc", 0, []⟩, []⟩ } := by decide
  have hrun := run_of_fires rfl hfires
  refine ⟨_, _, hrun, by decide, ?_⟩
  exact (buffers_of_calls _ _).1 _ _ hrun (running_of_reading (by decide))

end PicoDB
