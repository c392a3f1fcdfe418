import PicoDB.System

/-!
# PicoDB.LockStep — one request at a time

Between the driver's `pop` and its `queueTheResponse` there is never more than
one request on its way. Where it is, is a `Token`; the invariant `At` says what
the two loops and the channels look like for each place of the token, and the
step lemmas say how a step of a loop moves it.

`lock_step` reads off the invariant that writes and reads of the driver
alternate, that the session's queue never grows, and that the replies are the
requests.
-/

namespace PicoDB.LockStep

open ConcurrentVector Lts

variable {T : Type} {X : Externals}

/-- The body parses and is recognised as a body. -/
def Clean (X : Externals) (body : Bytes) : Prop := ∃ m, receive X body = .ok (some m)

theorem receive_json {body : Bytes} {m : PicoMessage} (h : receive X body = .ok (some m)) :
    m.json_form_of_message = body := by
  rcases bind_eq_ok h with ⟨v, hv, h⟩
  cases v with
  | readNext n => cases h
  | message str =>
    rcases map_eq_ok h with ⟨m', hm', heq⟩
    cases heq
    rw [PicoMessage.ofJson_json hm']
    exact (ReadSome.message_of_verdict (r := ⟨body.length, false, body⟩) hv).1

/-- A body as the field constructors make it is written as it is. -/
theorem writeOneBuffer_of_fields (text : Nat → Bytes) (M : Memory) {b : Bytes}
    (h0 : (0 : Byte) ∉ b) (hlen : 2 < b.length) :
    ∃ f, writeOneBuffer text M (.ofString b) = .ok f ∧ f.body = b := by
  rcases PicoRecord.getDataForWrite_ofString_ok M.beyond h0 hlen with ⟨r, hr⟩
  have hok : ∃ f, writeOneBuffer text M (.ofString b) = .ok f := by
    simp only [writeOneBuffer, hr]
    exact ⟨_, rfl⟩
  rcases hok with ⟨f, hf⟩
  exact ⟨f, hf, writeOneBuffer_body h0 hf⟩

/-! ## The token -/

/-- Where the request in flight is, if there is one. -/
inductive Token where
  | home
  /-- popped by the driver -/
  | taken (b : Bytes)
  | sent (b : Bytes)
  /-- parsed by the session -/
  | parsed (b : Bytes)
  /-- in the session's queue -/
  | queued (b : Bytes)
  /-- popped by the session -/
  | popped (b : Bytes)
  | answered (b : Bytes)
  /-- parsed by the driver -/
  | arrived (b : Bytes)

/-- The bodies in flight. -/
def Token.bodies : Token → List Bytes
  | home => []
  | taken b => [b]
  | sent b => [b]
  | parsed b => [b]
  | queued b => [b]
  | popped b => [b]
  | answered b => [b]
  | arrived b => [b]

/-- What the two channels and the session's queue hold. -/
def Holds (s : State T) (toSession : List Frame) (bufferQueue : List PicoRecord)
    (toDriver : List Frame) : Prop :=
  s.toSession = toSession ∧ s.bufferQueue = bufferQueue ∧ s.toDriver = toDriver

/-- The loops and channels when the token is at a place. -/
def At (s : State T) : Token → Prop
  | .home =>
    (s.driver = .testing ∨ s.driver = .parked ∨ (s.driver = .popping ∧ s.requestQueue ≠ [])) ∧
      s.session = .reading ∧ Holds s [] [] [] ∧ s.written = s.replies
  | .taken b =>
    (∃ addr, s.driver = .writing ⟨addr, .ofString b⟩) ∧ s.session = .reading ∧
      Holds s [] [] [] ∧ s.written = s.replies
  | .sent b =>
    s.driver = .reading ∧ s.session = .reading ∧ (∃ f : Frame, f.body = b ∧ Holds s [f] [] []) ∧
      s.written = s.replies ++ [b]
  | .parsed b =>
    s.driver = .reading ∧
      (∃ m : PicoMessage, m.json_form_of_message = b ∧ s.session = .queueing m) ∧
      Holds s [] [] [] ∧ s.written = s.replies ++ [b]
  | .queued b =>
    s.driver = .reading ∧ (s.session = .testing ∨ s.session = .popping) ∧
      Holds s [] [.ofString b] [] ∧ s.written = s.replies ++ [b]
  | .popped b =>
    s.driver = .reading ∧ s.session = .writing (.ofString b) ∧ Holds s [] [] [] ∧
      s.written = s.replies ++ [b]
  | .answered b =>
    s.driver = .reading ∧ s.session = .reading ∧ (∃ f : Frame, f.body = b ∧ Holds s [] [] [f]) ∧
      s.written = s.replies ++ [b]
  | .arrived b =>
    (∃ p : SharedPtr PicoMessage, p.val.json_form_of_message = b ∧ s.driver = .queueing p) ∧
      s.session = .reading ∧ Holds s [] [] [] ∧ s.written = s.replies

/-- The body of a request that was issued. -/
def IsBody (s : State T) (b : Bytes) : Prop := ∃ m ∈ s.issued, m.json_form_of_message = b

/-- The requests are messages built from fields, and the queue holds records of
requests. -/
structure Requests (X : Externals) (s : State T) : Prop where
  built : ∀ m ∈ s.issued, ∃ a draw, m = FieldArgs.build X draw a
  queue : ∀ r ∈ s.requestQueue, ∃ b, IsBody s b ∧ r.val = .ofString b

theorem zero_notMem_of_isBody {s : State T} (h : Requests X s) {b : Bytes} (hb : IsBody s b) :
    (0 : Byte) ∉ b ∧ 2 < b.length := by
  rcases hb with ⟨m, hm, rfl⟩
  rcases h.built m hm with ⟨a, draw, rfl⟩
  exact ⟨(a.assigned draw).zero_notMem_convertMessageToJson,
    (a.assigned draw).lt_length_convertMessageToJson⟩

/-- What a step of the driver does to its two vectors and to the token. -/
inductive Moved (s s' : State T) (k k' : Token) : Prop where
  | along (hbodies : k'.bodies = k.bodies) (hrequest : s'.requestQueue = s.requestQueue)
      (hresponse : s'.responseQueue = s.responseQueue)
  | pops (r : SharedPtr PicoRecord) (hpop : s.requestQueue = s'.requestQueue ++ [r])
      (hbefore : k.bodies = []) (hafter : k'.bodies = [r.val.data_])
      (hresponse : s'.responseQueue = s.responseQueue)
  | delivers (p : SharedPtr PicoMessage) (hdriver : s.driver = .queueing p)
      (hbefore : k.bodies = [p.val.json_form_of_message]) (hafter : k'.bodies = [])
      (hrequest : s'.requestQueue = s.requestQueue)
      (hresponse : s'.responseQueue = s.responseQueue ++ [p])

/-- The token's body, if any, is that of a request. -/
def Carries (s : State T) (k : Token) : Prop := ∀ b ∈ k.bodies, IsBody s b

theorem clean_of_isBody {s : State T} (hclean : ∀ m ∈ s.issued, Clean X m.json_form_of_message)
    {b : Bytes} (hb : IsBody s b) : Clean X b := by
  rcases hb with ⟨m, hm, rfl⟩
  exact hclean m hm

/-- Step lemma of the driver. -/
theorem driverStep_moved {s : State T} {k : Token} (M : Memory) (hat : At s k)
    (hreq : Requests X s) (hcarry : Carries s k)
    (hclean : ∀ m ∈ s.issued, Clean X m.json_form_of_message)
    (hguard : s.driver = .reading → s.toDriver ≠ []) :
    ∃ k', At (driverStep X M s) k' ∧ Moved s (driverStep X M s) k k' := by
  cases k with
  | home =>
    rcases hat with ⟨hd | hd | ⟨hd, hq⟩, hs, hw, hlog⟩
    · -- testing: on to the pop, or to sleep
      by_cases hq : s.requestQueue = []
      · have hstep : driverStep X M s = { s with driver := .parked } := by
          simp only [driverStep, hd, if_pos hq]
        rw [hstep]
        exact ⟨.home, ⟨Or.inr (Or.inl rfl), hs, hw, hlog⟩, .along rfl rfl rfl⟩
      · have hstep : driverStep X M s = { s with driver := .popping } := by
          simp only [driverStep, hd, if_neg hq]
        rw [hstep]
        exact ⟨.home, ⟨Or.inr (Or.inr ⟨rfl, hq⟩), hs, hw, hlog⟩, .along rfl rfl rfl⟩
    · -- parked: any wake-up goes back to the test
      have hstep : driverStep X M s = { s with driver := .testing } := by
        simp only [driverStep, hd]
      rw [hstep]
      exact ⟨.home, ⟨Or.inl rfl, hs, hw, hlog⟩, .along rfl rfl rfl⟩
    · -- popping: nobody else pops, so the request seen by the test is still there
      rcases List.eq_nil_or_concat s.requestQueue with hnil | ⟨rest, r, hr⟩
      · exact absurd hnil hq
      · rw [List.concat_eq_append] at hr
        have hpop : pop s.requestQueue = (some r, rest) := by simp [pop, hr]
        have hstep : driverStep X M s =
            { s with requestQueue := rest, driver := .writing r, popped := s.popped ++ [r] } := by
          simp only [driverStep, hd, hpop]
        rcases hreq.queue r (by rw [hr]; simp) with ⟨b, -, hb⟩
        rw [hstep]
        refine ⟨.taken b, ⟨⟨r.addr, by rw [← hb]⟩, hs, hw, hlog⟩, .pops r hr rfl ?_ rfl⟩
        rw [hb]
        rfl
  | taken b =>
    -- the body is that of a message built from fields, so the write goes through
    rcases hat with ⟨⟨addr, hd⟩, hs, ⟨hto, hbuf, hback⟩, hlog⟩
    have hbody := zero_notMem_of_isBody hreq (hcarry b (by simp [Token.bodies]))
    rcases writeOneBuffer_of_fields convertToString M hbody.1 hbody.2 with ⟨f, hf, hfb⟩
    have hstep : driverStep X M s =
        { s with toSession := s.toSession ++ [f], driver := .reading,
                 written := s.written ++ [f.body] } := by
      simp only [driverStep, hd, Driver.writeOneBuffer, hf]
    rw [hstep]
    refine ⟨.sent b, ⟨rfl, hs, ⟨f, hfb, ?_, hbuf, hback⟩, ?_⟩, .along rfl rfl rfl⟩
    · simp only [hto, List.nil_append]
    · simp only [hlog, hfb]
  -- in the next five places the driver waits for a frame that is not there yet
  | sent b =>
    rcases hat with ⟨hd, -, ⟨f, -, -, -, hback⟩, -⟩
    exact absurd hback (hguard hd)
  | parsed b =>
    rcases hat with ⟨hd, -, ⟨-, -, hback⟩, -⟩
    exact absurd hback (hguard hd)
  | queued b =>
    rcases hat with ⟨hd, -, ⟨-, -, hback⟩, -⟩
    exact absurd hback (hguard hd)
  | popped b =>
    rcases hat with ⟨hd, -, ⟨-, -, hback⟩, -⟩
    exact absurd hback (hguard hd)
  | answered b =>
    rcases hat with ⟨hd, hs, ⟨f, rfl, hto, hbuf, hback⟩, hlog⟩
    rcases clean_of_isBody hclean (hcarry f.body (by simp [Token.bodies])) with ⟨m, hm⟩
    have hstep : driverStep X M s =
        { s with toDriver := [], driver := .queueing ⟨s.fresh, m⟩, fresh := s.fresh + 1,
                 replies := s.replies ++ [f.body] } := by
      simp only [driverStep, hd, hback, hm]
    rw [hstep]
    exact ⟨.arrived f.body, ⟨⟨_, receive_json hm, rfl⟩, hs, ⟨hto, hbuf, rfl⟩, hlog⟩,
      .along rfl rfl rfl⟩
  | arrived b =>
    rcases hat with ⟨⟨p, hp, hd⟩, hs, hw, hlog⟩
    have hstep : driverStep X M s =
        { s with responseQueue := pushBack p s.responseQueue, driver := .testing } := by
      simp only [driverStep, hd]
    rw [hstep]
    exact ⟨.home, ⟨Or.inl rfl, hs, hw, hlog⟩, .delivers p hd (by rw [hp]; rfl) rfl rfl rfl⟩

/-- Step lemma of the session. -/
theorem sessionStep_moved {s : State T} {k : Token} (dangling : Nat → Bytes) (M : Memory)
    (hat : At s k) (hreq : Requests X s) (hcarry : Carries s k)
    (hclean : ∀ m ∈ s.issued, Clean X m.json_form_of_message)
    (hguard : s.session = .reading → s.toSession ≠ []) :
    ∃ k', At (sessionStep X dangling M s) k' ∧ k'.bodies = k.bodies := by
  cases k with
  -- with nothing on the wire the session waits
  | home =>
    rcases hat with ⟨-, hs, ⟨hto, -, -⟩, -⟩
    exact absurd hto (hguard hs)
  | taken b =>
    rcases hat with ⟨-, hs, ⟨hto, -, -⟩, -⟩
    exact absurd hto (hguard hs)
  | sent b =>
    rcases hat with ⟨hd, hs, ⟨f, rfl, hto, hbuf, hback⟩, hlog⟩
    rcases clean_of_isBody hclean (hcarry f.body (by simp [Token.bodies])) with ⟨m, hm⟩
    have hstep : sessionStep X dangling M s =
        { s with toSession := [], session := .queueing m } := by
      simp only [sessionStep, hs, hto, hm]
    rw [hstep]
    exact ⟨.parsed f.body, ⟨hd, ⟨m, receive_json hm, rfl⟩, ⟨rfl, hbuf, hback⟩, hlog⟩, rfl⟩
  | parsed b =>
    rcases hat with ⟨hd, ⟨m, hm, hs⟩, ⟨hto, hbuf, hback⟩, hlog⟩
    have hstep : sessionStep X dangling M s =
        { s with bufferQueue := [.ofString b], session := .testing } := by
      simp only [sessionStep, hs, hbuf, pushBack, PicoMessage.ofString_json, hm, List.nil_append]
    rw [hstep]
    exact ⟨.queued b, ⟨hd, Or.inl rfl, ⟨hto, rfl, hback⟩, hlog⟩, rfl⟩
  | queued b =>
    rcases hat with ⟨hd, hs | hs, ⟨hto, hbuf, hback⟩, hlog⟩
    · -- the reply is in the queue before the test, so the session does not park
      have hstep : sessionStep X dangling M s = { s with session := .popping } := by
        simp only [sessionStep, hs, hbuf]
        rfl
      rw [hstep]
      exact ⟨.queued b, ⟨hd, Or.inr rfl, ⟨hto, hbuf, hback⟩, hlog⟩, rfl⟩
    · have hpop : pop s.bufferQueue = (some (.ofString b), []) := by rw [hbuf]; rfl
      have hstep : sessionStep X dangling M s =
          { s with bufferQueue := [], session := .writing (.ofString b) } := by
        simp only [sessionStep, hs, hpop]
      rw [hstep]
      exact ⟨.popped b, ⟨hd, rfl, ⟨hto, rfl, hback⟩, hlog⟩, rfl⟩
  | popped b =>
    rcases hat with ⟨hd, hs, ⟨hto, hbuf, hback⟩, hlog⟩
    have hbody := zero_notMem_of_isBody hreq (hcarry b (by simp [Token.bodies]))
    rcases writeOneBuffer_of_fields (fun n => cString (dangling n)) M hbody.1 hbody.2
      with ⟨f, hf, hfb⟩
    have hstep : sessionStep X dangling M s =
        { s with toDriver := s.toDriver ++ [f], session := .reading } := by
      simp only [sessionStep, hs, Session.writeOneBuffer, hf]
    rw [hstep]
    refine ⟨.answered b, ⟨hd, rfl, ⟨f, hfb, hto, hbuf, ?_⟩, hlog⟩, rfl⟩
    simp only [hback, List.nil_append]
  | answered b =>
    rcases hat with ⟨-, hs, ⟨f, -, hto, -, -⟩, -⟩
    exact absurd hto (hguard hs)
  | arrived b =>
    rcases hat with ⟨-, hs, ⟨hto, -, -⟩, -⟩
    exact absurd hto (hguard hs)

/-! ## The invariant -/

/-- A step that leaves the loops alone leaves the token where it is. -/
theorem at_of_sameLoops {s s' : State T} (h : SameLoops s s') {k : Token} (hat : At s k) :
    At s' k := by
  cases k <;>
    simpa only [At, Holds, h.requestQueue, h.driver, h.toSession, h.session, h.bufferQueue,
      h.toDriver, h.written, h.replies] using hat

/-- A longer request queue does not matter to the token. -/
theorem at_queueRequestMessages {s : State T} {k : Token} (m : PicoMessage) (hat : At s k) :
    At (queueRequestMessages m s) k := by
  cases k with
  | home =>
    rcases hat with ⟨hd, hrest⟩
    refine ⟨?_, hrest⟩
    rcases hd with hd | hd | ⟨hd, -⟩
    · exact Or.inl hd
    · exact Or.inr (Or.inl hd)
    · exact Or.inr (Or.inr ⟨hd, by simp [queueRequestMessages, pushBack]⟩)
  | taken b => exact hat
  | sent b => exact hat
  | parsed b => exact hat
  | queued b => exact hat
  | popped b => exact hat
  | answered b => exact hat
  | arrived b => exact hat

/-- The bodies written are the replies and at most one more. -/
theorem replies_of_at {s : State T} {k : Token} (h : At s k) :
    s.written = s.replies ∨ ∃ b, s.written = s.replies ++ [b] := by
  cases k with
  | home => exact Or.inl h.2.2.2
  | taken b => exact Or.inl h.2.2.2
  | sent b => exact Or.inr ⟨b, h.2.2.2⟩
  | parsed b => exact Or.inr ⟨b, h.2.2.2⟩
  | queued b => exact Or.inr ⟨b, h.2.2.2⟩
  | popped b => exact Or.inr ⟨b, h.2.2.2⟩
  | answered b => exact Or.inr ⟨b, h.2.2.2⟩
  | arrived b => exact Or.inl h.2.2.2

/-- The session's queue, by where its loop is. -/
theorem bufferQueue_of_at {s : State T} {k : Token} (h : At s k) :
    s.bufferQueue.length ≤ 1 ∧ (s.session = .reading → s.bufferQueue = []) ∧
      (s.session = .testing → s.bufferQueue ≠ []) ∧ s.session ≠ .parked := by
  have hempty : ∀ pc, s.session = pc → pc ≠ .testing → pc ≠ .parked → s.bufferQueue = [] →
      s.bufferQueue.length ≤ 1 ∧ (s.session = .reading → s.bufferQueue = []) ∧
        (s.session = .testing → s.bufferQueue ≠ []) ∧ s.session ≠ .parked := by
    rintro pc rfl htest hpark hbuf
    exact ⟨by simp [hbuf], fun _ => hbuf, fun h => absurd h htest, hpark⟩
  cases k with
  | home => exact hempty _ h.2.1 (by simp) (by simp) h.2.2.1.2.1
  | taken b => exact hempty _ h.2.1 (by simp) (by simp) h.2.2.1.2.1
  | sent b =>
    rcases h with ⟨-, hs, ⟨f, -, -, hbuf, -⟩, -⟩
    exact hempty _ hs (by simp) (by simp) hbuf
  | parsed b =>
    rcases h with ⟨-, ⟨m, -, hs⟩, ⟨-, hbuf, -⟩, -⟩
    exact hempty _ hs (by simp) (by simp) hbuf
  | queued b =>
    rcases h with ⟨-, hs, ⟨-, hbuf, -⟩, -⟩
    refine ⟨by simp [hbuf], ?_, fun _ => by simp [hbuf], ?_⟩
    · intro hr
      rcases hs with hs | hs
      · rw [hs] at hr
        cases hr
      · rw [hs] at hr
        cases hr
    · rcases hs with hs | hs
      · simp [hs]
      · simp [hs]
  | popped b => exact hempty _ h.2.1 (by simp) (by simp) h.2.2.1.2.1
  | answered b =>
    rcases h with ⟨-, hs, ⟨f, -, -, hbuf, -⟩, -⟩
    exact hempty _ hs (by simp) (by simp) hbuf
  | arrived b => exact hempty _ h.2.1 (by simp) (by simp) h.2.2.1.2.1

/-- **The invariant.** The token is at some place, it carries a request, and so
does the request queue. -/
def Inv (X : Externals) (s : State T) : Prop := ∃ k, At s k ∧ Carries s k ∧ Requests X s

theorem isBody_of_prefix {s s' : State T} (h : s.issued <+: s'.issued) {b : Bytes}
    (hb : IsBody s b) : IsBody s' b := by
  rcases hb with ⟨m, hm, hjson⟩
  exact ⟨m, h.subset hm, hjson⟩

variable [DecidableEq T]

theorem init_inv {s : State T} (h : (system X T).Init s) : Inv X s := by
  cases h
  refine ⟨.home, ⟨Or.inl rfl, rfl, ⟨rfl, rfl, rfl⟩, rfl⟩, by simp [Carries, Token.bodies], ?_⟩
  exact ⟨by simp, by simp⟩

theorem step_inv {s : State T} (l : Label T) (hguard : (system X T).guard l s)
    (hclean : ∀ m ∈ s.issued, Clean X m.json_form_of_message) (hinv : Inv X s) :
    Inv X ((system X T).update l s) := by
  rcases hinv with ⟨k, hat, hcarry, hreq⟩
  have hprefix := issued_grows X l s
  cases l with
  | issue t a draw t1 t2 userTimeOut =>
    -- one more request, one more record; the token stays where it is
    refine ⟨k, at_queueRequestMessages _ hat, fun b hb => isBody_of_prefix hprefix (hcarry b hb),
      ?_, ?_⟩
    · have hnew : ∃ a' draw', a.build X draw = FieldArgs.build X draw' a' := ⟨a, draw, rfl⟩
      exact List.forall_mem_append.mpr ⟨hreq.built, List.forall_mem_singleton.mpr hnew⟩
    · refine List.forall_mem_append.mpr ⟨fun r hr => ?_, List.forall_mem_singleton.mpr ?_⟩
      · rcases hreq.queue r hr with ⟨b, hb, hrb⟩
        exact ⟨b, isBody_of_prefix hprefix hb, hrb⟩
      · exact ⟨_, ⟨a.build X draw, List.mem_append_right _ (List.mem_singleton.mpr rfl), rfl⟩, rfl⟩
  | caller t locked =>
    -- callers touch neither the loops nor the requests
    have hsame := callerStep_sameLoops X t locked s
    refine ⟨k, at_of_sameLoops hsame hat, fun b hb => isBody_of_prefix hprefix (hcarry b hb),
      ?_, ?_⟩
    · intro m hm
      exact hreq.built m (hsame.issued ▸ hm)
    · intro r hr
      rcases hreq.queue r (hsame.requestQueue ▸ hr) with ⟨b, hb, hrb⟩
      exact ⟨b, isBody_of_prefix hprefix hb, hrb⟩
  | driver M =>
    have hsame := driverStep_sameCalls X M s
    rcases driverStep_moved M hat hreq hcarry hclean hguard.2 with ⟨k', hat', hmoved⟩
    have hqueue : ∀ r ∈ (driverStep X M s).requestQueue, r ∈ s.requestQueue := by
      intro r hr
      cases hmoved with
      | along _ hrequest _ => rwa [hrequest] at hr
      | pops r' hpop _ _ _ =>
        rw [hpop]
        exact List.mem_append_left _ hr
      | delivers p _ _ _ hrequest _ => rwa [hrequest] at hr
    refine ⟨k', hat', fun b hb => isBody_of_prefix hprefix ?_, ?_, ?_⟩
    · cases hmoved with
      | along hbodies _ _ => exact hcarry b (hbodies ▸ hb)
      | pops r hpop _ hafter _ =>
        rcases hreq.queue r (by rw [hpop]; simp) with ⟨b', hb', hr⟩
        rw [hafter, List.mem_singleton, hr] at hb
        rwa [hb]
      | delivers p _ _ hafter _ _ => simp [hafter] at hb
    · intro m hm
      exact hreq.built m (hsame.issued ▸ hm)
    · intro r hr
      rcases hreq.queue r (hqueue r hr) with ⟨b, hb, hrb⟩
      exact ⟨b, isBody_of_prefix hprefix hb, hrb⟩
  | session dangling M =>
    have hsame := sessionStep_sameCalls X dangling M s
    have hframe := sessionStep_frame X dangling M s
    rcases sessionStep_moved dangling M hat hreq hcarry hclean hguard.2 with ⟨k', hat', hbodies⟩
    refine ⟨k', hat', fun b hb => isBody_of_prefix hprefix (hcarry b (hbodies ▸ hb)), ?_, ?_⟩
    · intro m hm
      exact hreq.built m (hsame.issued ▸ hm)
    · intro r hr
      rcases hreq.queue r (hframe.1 ▸ hr) with ⟨b, hb, hrb⟩
      exact ⟨b, isBody_of_prefix hprefix hb, hrb⟩

theorem safety {s : State T} (h : Reachable (system X T) s)
    (hclean : ∀ m ∈ s.issued, Clean X m.json_form_of_message) : Inv X s := by
  refine reachable_invariant_under (fun s => ∀ m ∈ s.issued, Clean X m.json_form_of_message)
    (Inv X) ?_ (fun s => init_inv) ?_ h hclean
  · intro l s _ hH m hm
    exact hH m ((issued_grows X l s).subset hm)
  · intro l s _ hg hH hi
    exact step_inv l hg (fun m hm => hH m ((issued_grows X l s).subset hm)) hi

/-- **The lock-step protocol.** In every reachable state whose requests parse
and are recognised as bodies, for any number of application threads: at most
one request of the driver is unanswered; the session's queue holds at most one
record, none when the session reads and one when it starts to write, and the
session never parks; the replies read are the requests written, in order. -/
theorem lock_step {s : State T} (h : Reachable (system X T) s)
    (hclean : ∀ m ∈ s.issued, Clean X m.json_form_of_message) :
    (s.written.length = s.replies.length ∨ s.written.length = s.replies.length + 1) ∧
      (s.bufferQueue.length ≤ 1 ∧ (s.session = .reading → s.bufferQueue = []) ∧
        (s.session = .testing → s.bufferQueue ≠ []) ∧ s.session ≠ .parked) ∧
      ∀ (i : Nat) (b : Bytes), s.replies[i]? = some b → s.written[i]? = some b := by
  rcases safety h hclean with ⟨k, hat, -, -⟩
  have hprefix := replies_of_at hat
  refine ⟨?_, bufferQueue_of_at hat, ?_⟩
  · rcases hprefix with hlog | ⟨b, hlog⟩
    · exact Or.inl (congrArg List.length hlog)
    · exact Or.inr (by rw [hlog, List.length_append, List.length_singleton])
  · intro i b hi
    rcases hprefix with hlog | ⟨b', hlog⟩
    · rwa [hlog]
    · rw [hlog, List.getElem?_append_left (List.getElem?_eq_some_iff.mp hi).1]
      exact hi

/-! ## Two requests, there and back -/

/-- A request to insert a value. -/
def sample : FieldArgs :=
  .insert (ascii "k") (ascii "v") (ascii "insert") (ascii "db") (ascii "u") (ascii "c")

/-- Two threads draw different ids. -/
def sampleDraw (t : Bool) : Fin 32 → Nat := fun _ => t.toNat

def sampleMessage (t : Bool) : PicoMessage :=
  sample.build ⟨fun _ => none, fun _ => 0⟩ (sampleDraw t)

/-- A parser that reads the members of the requests back. -/
def sampleLibrary : Externals where
  parse s :=
    ([false, true].find? fun t => s = (sampleMessage t).json_form_of_message).map fun t =>
      .objectValue ((sampleMessage t).members.map fun m => (m.1, .stringValue m.2))
  stdHash _ := 0

theorem receive_sample (t : Bool) :
    ∃ m, receive sampleLibrary (sampleMessage t).json_form_of_message = .ok (some m) ∧
      m.messageId = (sampleMessage t).messageId := by
  have hid : (receive sampleLibrary (sampleMessage t).json_form_of_message).map
      (Option.map PicoMessage.messageId) = .ok (some (sampleMessage t).messageId) := by
    revert t
    decide +kernel
  rcases map_eq_ok hid with ⟨o, ho, hid⟩
  rcases Option.map_eq_some_iff.mp hid with ⟨m, rfl, hm⟩
  exact ⟨m, ho, hm⟩

/-- A request goes to the session and comes back. -/
def roundTrip {T : Type} : List (Label T) :=
  [.driver .zeros, .driver .zeros, .driver .zeros,
    .session convertToString .zeros, .session convertToString .zeros,
    .session convertToString .zeros, .session convertToString .zeros,
    .session convertToString .zeros,
    .driver .zeros, .driver .zeros]

/-- A thread looks at the back of `responseQueue_` once. -/
def looks {T : Type} (t : T) : List (Label T) :=
  [.caller t true, .caller t true, .caller t true, .caller t true]

/-- Each thread issues a request. The later one is popped first, so that its
response is before the eyes of the other thread, and then behind the other one. -/
def sampleRun : List (Label Bool) :=
  [.issue false sample (sampleDraw false) 0 0 10, .issue true sample (sampleDraw true) 0 0 10] ++
    roundTrip ++ looks false ++ roundTrip ++ looks true ++ looks false ++ looks true

def sampleEnd : State Bool := after (system sampleLibrary Bool) sampleRun {}

theorem sampleRun_fires :
    Fires (system sampleLibrary Bool) sampleRun {} ∧
      sampleEnd.issued = [sampleMessage false, sampleMessage true] ∧
      sampleEnd.replies =
        [(sampleMessage true).json_form_of_message, (sampleMessage false).json_form_of_message] ∧
      sampleEnd.returned.map (fun e => e.1.msg) = [sampleMessage false, sampleMessage true] := by
  decide +kernel

theorem reachable_sampleEnd : Reachable (system sampleLibrary Bool) sampleEnd :=
  ⟨_, run_of_fires rfl sampleRun_fires.1⟩

theorem mem_issued_sampleEnd {m : PicoMessage} :
    m ∈ sampleEnd.issued ↔ ∃ t, m = sampleMessage t := by
  rw [sampleRun_fires.2.1, List.mem_pair, Bool.exists_bool]

theorem lock_step_sample :
    sampleEnd.written[0]? = some (sampleMessage true).json_form_of_message ∧
      sampleEnd.written[1]? = some (sampleMessage false).json_form_of_message := by
  have hclean : ∀ m ∈ sampleEnd.issued, Clean sampleLibrary m.json_form_of_message := by
    intro m hm
    obtain ⟨t, rfl⟩ := mem_issued_sampleEnd.mp hm
    obtain ⟨m', hm', -⟩ := receive_sample t
    exact ⟨m', hm'⟩
  have hreplies := (lock_step reachable_sampleEnd hclean).2.2
  rw [sampleRun_fires.2.2.1] at hreplies
  exact ⟨hreplies 0 _ rfl, hreplies 1 _ rfl⟩

end PicoDB.LockStep
