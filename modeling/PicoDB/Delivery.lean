import PicoDB.Wire

/-!
# PicoDB.Delivery — what the system of streams does for its callers

* `refines`: the system of streams goes through the states of the system of
  frames.

Over `jsoncpp`, so from the text of a request to that of its response:

* `own_content_of_bytes`: every call that comes back has the content of its own
  request, and nothing else is ever queued for a caller.
* `all_answered`: once the application threads issue nothing more, every request
  is answered. (While they do, the driver pops the newest request first, so an
  old one may wait for ever.)

The last is a matter of fairness: `ready_of_settled` says that when all bytes
have arrived a loop can go on, and `lowers` that every step of a loop brings the
requests nearer to their answers.
-/

namespace PicoDB.Wire

open ConcurrentVector Lts LockStep Responses Exchange

variable {T : Type} [DecidableEq T]

/-! ## Requests that fit -/

/-- Every request was built from fields. -/
theorem built {X : Externals} {tr : List (State T × Label T)} {s : State T}
    (h : Run (wire X T) tr s) : ∀ m ∈ s.core.issued, ∃ a draw, m = FieldArgs.build X draw a := by
  refine run_invariant
    (fun s : State T => ∀ m ∈ s.core.issued, ∃ a draw, m = FieldArgs.build X draw a) ?_ ?_ h
  · rintro s rfl m hm
    cases hm
  · intro l s _ hi
    cases l with
    | issue t a draw t1 t2 u =>
      have hnew : ∃ a' draw', a.build X draw = FieldArgs.build X draw' a' := ⟨a, draw, rfl⟩
      exact List.forall_mem_append.mpr ⟨hi, List.forall_mem_singleton.mpr hnew⟩
    | caller t locked =>
      change ∀ m ∈ (callerStep X t locked s.core).issued, _
      rw [(callerStep_sameLoops X t locked s.core).issued]
      exact hi
    | driver P =>
      change ∀ m ∈ (driverStep X P s).core.issued, _
      rw [(driverStep_calls P s).issued]
      exact hi
    | session P =>
      change ∀ m ∈ (sessionStep X P s).core.issued, _
      rw [(sessionStep_calls P s).issued]
      exact hi
    | toSession k => exact hi
    | toDriver k => exact hi

section Jsoncpp

variable {scanDouble : Bytes → Option UInt64} {stdHash : Bytes → UInt64}

/-- The requests are read as messages, no NUL cuts their ids short, and headers
can state their sizes. -/
def Deliverable (s : PicoDB.State T) : Prop :=
  ∀ m ∈ s.issued, Plain m ∧ m.json_form_of_message.length ≤ 999999

theorem fit_of_deliverable {tr : List (State T × Label T)} {s : State T}
    (h : Run (wire (jsoncpp scanDouble stdHash) T) tr s) (hd : Deliverable s.core) :
    Fit (jsoncpp scanDouble stdHash) s.core := by
  intro m hm
  obtain ⟨hplain, hlen⟩ := hd m hm
  obtain ⟨a, draw, rfl⟩ := built h m hm
  have hreceive := receive_plain hplain
  rw [← PicoMessage.complete_json (jsoncpp scanDouble stdHash)] at hreceive
  exact ⟨⟨_, hreceive⟩, hlen⟩

end Jsoncpp

/-! ## Two requests, there and back -/

/-- An environment that takes and gives everything at once. -/
def quiet : Peer := Peer.quiet false fun _ => 1000

/-- The library, with a number reader that reads nothing. -/
def library : Externals := jsoncpp (fun _ => none) fun _ => 0

/-- Each of two threads issues a request. -/
def wireIssue : List (Label Bool) :=
  [.issue false sample (sampleDraw false) 0 0 10, .issue true sample (sampleDraw true) 0 0 10]

/-- The bytes arrive in pieces, and those of the response at once. -/
def piecemeal : List (Label Bool) :=
  [.driver quiet, .driver quiet, .driver quiet, .toSession 4, .toSession 6, .session quiet,
    .toSession 1, .driver quiet, .toSession 50, .toSession 1000, .session quiet,
    .session quiet, .session quiet, .session quiet, .session quiet, .session quiet,
    .toDriver 1000, .driver quiet, .driver quiet, .driver quiet]

/-- The bytes arrive at once, and those of the response in pieces. -/
def atOnce : List (Label Bool) :=
  [.driver quiet, .driver quiet, .driver quiet, .driver quiet, .toSession 1000, .session quiet,
    .session quiet, .session quiet, .session quiet, .session quiet, .session quiet,
    .toDriver 7, .toDriver 30, .driver quiet, .session quiet, .toDriver 1000, .driver quiet,
    .driver quiet]

/-- A thread looks at the back of `responseQueue_` once. -/
def looks (t : Bool) : List (Label Bool) :=
  [.caller t true, .caller t true, .caller t true, .caller t true]

/-- Each thread has the response of the other one before its eyes, before it
finds its own. -/
def wireRest : List (Label Bool) :=
  piecemeal ++ looks false ++ atOnce ++ looks true ++ looks false ++ looks true

def wireRun : List (Label Bool) := wireIssue ++ wireRest

def wireStart : State Bool := after (wire library Bool) wireIssue {}

def wireEnd : State Bool := after (wire library Bool) wireRun {}

/-- What is needed of a run and of its end. -/
theorem wireRun_fires :
    (Fires (wire library Bool) wireRun {} ∧
        ∀ p ∈ trace (wire library Bool) wireRun {}, Served p.1 p.2) ∧
      ((∀ m ∈ wireEnd.core.issued, Plain m ∧ m.json_form_of_message.length ≤ 999999) ∧
        (wireEnd.core.issued.map PicoMessage.messageId).Nodup ∧
        wireEnd.core.returned.length = 2) ∧
      (wireEnd.core.driver = .testing ∧ wireEnd.core.requestQueue = [] ∧
        wireEnd.core.session = .reading ∧ wireEnd.sessionIo = .start ∧
        wireEnd.toSession = {} ∧ wireEnd.toDriver = {}) ∧
      wireStart.core.requestQueue.length = 2 ∧ wireStart.core.issued = wireEnd.core.issued := by
  decide +kernel

theorem statesSizes_wireRun : ∀ l ∈ wireRun, l.StatesSizes := by
  have hquiet : ∀ n, cString (quiet.dangling n) = convertToString n :=
    fun n => cString_of_zero_notMem (zero_notMem_convertToString n)
  simp [wireRun, wireIssue, wireRest, piecemeal, atOnce, looks, Label.StatesSizes, hquiet]

theorem wireRun_run : Run (wire library Bool) (trace (wire library Bool) wireRun {}) wireEnd :=
  run_of_fires rfl wireRun_fires.1.1

theorem wireRun_intact : ∀ p ∈ trace (wire library Bool) wireRun {}, Intact p.1 p.2 :=
  fun p hp => ⟨wireRun_fires.1.2 p hp, statesSizes_wireRun p.2 (mem_of_mem_trace hp)⟩

theorem deliverable_wireEnd : Deliverable wireEnd.core := wireRun_fires.2.1.1

theorem distinct_wireEnd : Distinct wireEnd.core := wireRun_fires.2.1.2.1

/-! ## Safety -/

/-- **Refinement.** In every run whose steps are intact, whatever the pieces in
which the bytes arrive, with requests that fit: `core` is a reachable state of
the system of frames, no loop ends, and what has been written in a direction
and not been read are the bytes of the frames on their way there. -/
theorem refines {X : Externals} {tr : List (State T × Label T)} {s : State T}
    (h : Run (wire X T) tr s) (hintact : ∀ p ∈ tr, Intact p.1 p.2) (hfit : Fit X s.core) :
    Reachable (system X T) s.core ∧
      (s.core.driver ≠ .halted ∧ s.core.session ≠ .halted) ∧
      Unread s.sessionIo (s.toSession.arrived ++ s.toSession.underWay ++ s.driverIo.unsent)
        s.core.toSession ∧
      Unread s.driverIo (s.toDriver.arrived ++ s.toDriver.underWay ++ s.sessionIo.unsent)
        s.core.toDriver := by
  have hinv := inv_of_run h hintact hfit
  rcases hinv.lockStep hfit with ⟨k, hat, -⟩
  exact ⟨hinv.reachable, Exchange.not_halted_of_at hat, hinv.toSession.bytes, hinv.toDriver.bytes⟩

theorem refines_wireRun : Reachable (system library Bool) wireEnd.core :=
  (refines wireRun_run wireRun_intact
    (fit_of_deliverable wireRun_run deliverable_wireEnd)).1

section Jsoncpp

variable {scanDouble : Bytes → Option UInt64} {stdHash : Bytes → UInt64}

/-- **Every call gets the content of its own request.** In every run whose steps
are intact, whatever the pieces in which the bytes arrive, with deliverable
requests of distinct ids: what waits in `responseQueue_` or was returned is what
was read from the text of a request, and what a call returned is what was read
from the text of its own. -/
theorem own_content_of_bytes {tr : List (State T × Label T)} {s : State T}
    (h : Run (wire (jsoncpp scanDouble stdHash) T) tr s) (hintact : ∀ p ∈ tr, Intact p.1 p.2)
    (hdeliverable : Deliverable s.core) (hids : Distinct s.core) :
    (∀ r ∈ responses s.core, ∃ m ∈ s.core.issued,
        r = m.readAs (jsoncpp scanDouble stdHash) m.json_form_of_message) ∧
      ∀ e ∈ s.core.returned, e.1.msg ∈ s.core.issued ∧
        e.2.val = e.1.msg.readAs (jsoncpp scanDouble stdHash) e.1.msg.json_form_of_message := by
  have hinv := inv_of_run h hintact (fit_of_deliverable h hdeliverable)
  exact own_content hinv.reachable (fun m hm => (hdeliverable m hm).1) hids

theorem own_content_of_bytes_wireRun :
    wireEnd.core.returned.length = 2 ∧ ∀ e ∈ wireEnd.core.returned,
      e.2.val = e.1.msg.readAs library e.1.msg.json_form_of_message := by
  have hown := own_content_of_bytes wireRun_run wireRun_intact deliverable_wireEnd distinct_wireEnd
  exact ⟨wireRun_fires.2.1.2.2, fun e he => (hown.2 e he).2⟩

end Jsoncpp

/-! ## A loop can go on -/

/-- All that the next read asks for has arrived. -/
def Arrived (sizeToRead : Int → Except Fault Nat) (io : Io) (arrived : Bytes) : Prop :=
  ∃ n, sizeToRead io.dataSizeToReadNext = .ok n ∧ n ≤ arrived.length

/-- The driver is not in a read, or has all that it asks for. -/
def DriverReady (s : State T) : Prop :=
  s.core.driver ≠ .halted ∧ (s.core.driver = .reading → s.driverIo.isSending = false →
    Arrived Driver.sizeToRead s.driverIo s.toDriver.arrived)

/-- The session is not in a read, or has all that it asks for. -/
def SessionReady (s : State T) : Prop :=
  s.core.session ≠ .halted ∧ (s.core.session = .reading → s.sessionIo.isSending = false →
    Arrived Session.sizeToRead s.sessionIo s.toSession.arrived)

/-- A frame that is on its way, and all of it written, can be read when its
bytes have arrived. -/
theorem Carried.ready {sizeToRead : Int → Except Fault Nat} (hsize : Faithful sizeToRead)
    {reader writer : Io} {c : Stream} {f : Frame} {frames : List Frame}
    (h : Carried reader writer c (f :: frames)) (hreader : reader.isSending = false)
    (hwriter : writer.isSending = false) (hsettled : c.underWay = []) :
    Arrived sizeToRead reader c.arrived := by
  have hf := h.announced f List.mem_cons_self
  have hunsent : writer.unsent = [] := by
    cases writer with
    | sending body => cases hwriter
    | start => rfl
    | next d => rfl
  have hbytes := h.bytes
  rw [hsettled, hunsent, List.append_nil, List.append_nil] at hbytes
  cases reader with
  | sending body => cases hreader
  | start =>
    have hall : c.arrived = (f :: frames).flatMap Frame.bytes := hbytes
    refine ⟨10, hsize 10 (by norm_num) (by norm_num), ?_⟩
    rw [hall, List.flatMap_cons, Frame.bytes, List.length_append, List.length_append, hf.length]
    omega
  | next d =>
    obtain ⟨g, rest, heq, rfl, hall⟩ := hbytes
    cases heq
    refine ⟨f.body.length, hsize _ hf.pos (Nat.lt_of_le_of_lt hf.le (by norm_num)), ?_⟩
    rw [hall, List.length_append]
    omega

variable {X : Externals}

/-- **The connection never gets stuck.** When all bytes have arrived, one of the
loops can go on. -/
theorem ready_of_settled {s : State T} (h : Inv X s) (hfit : Fit X s.core)
    (hup : s.toSession.underWay = []) (hdown : s.toDriver.underWay = []) :
    DriverReady s ∨ SessionReady s := by
  rcases h.lockStep hfit with ⟨k, hat, -⟩
  obtain ⟨hdriver, hsession⟩ := not_halted_of_at hat
  by_cases hd : s.core.driver = .reading ∧ s.driverIo.isSending = false
  · by_cases hs : s.core.session = .reading ∧ s.sessionIo.isSending = false
    · -- both wait: the request is in one of the two directions
      cases k with
      | sent b =>
        obtain ⟨-, -, ⟨f, -, hto, -, -⟩, -⟩ := hat
        have hcarried := h.toSession
        rw [hto] at hcarried
        exact Or.inr ⟨hsession, fun _ _ => hcarried.ready Session.faithful hs.2 hd.2 hup⟩
      | answered b =>
        obtain ⟨-, -, ⟨f, -, -, -, hback⟩, -⟩ := hat
        have hcarried := h.toDriver
        rw [hback] at hcarried
        exact Or.inl ⟨hdriver, fun _ _ => hcarried.ready Driver.faithful hd.2 hs.2 hdown⟩
      | _ => simp [At, hd.1, hs.1] at hat
    · exact Or.inr ⟨hsession, fun hread hio => absurd ⟨hread, hio⟩ hs⟩
  · exact Or.inl ⟨hdriver, fun hread hio => absurd ⟨hread, hio⟩ hd⟩

/-- Only its own steps make the driver less ready. -/
theorem driverReady_stays (l : Label T) (s : State T) (hl : ∀ P, l ≠ .driver P)
    (h : DriverReady s) : DriverReady ((wire X T).update l s) := by
  have hkeep : ∀ s' : State T, s'.core.driver = s.core.driver → s'.driverIo = s.driverIo →
      s.toDriver.arrived <+: s'.toDriver.arrived → DriverReady s' := by
    intro s' hd hio harrived
    refine ⟨by rw [hd]; exact h.1, fun hread hsend => ?_⟩
    rw [hd] at hread
    rw [hio] at hsend ⊢
    obtain ⟨n, hn, hle⟩ := h.2 hread hsend
    exact ⟨n, hn, hle.trans harrived.length_le⟩
  cases l with
  | issue t a draw t1 t2 u => exact hkeep _ rfl rfl List.prefix_rfl
  | caller t locked =>
    exact hkeep _ (callerStep_sameLoops X t locked s.core).driver rfl List.prefix_rfl
  | driver P => exact absurd rfl (hl P)
  | session P =>
    have hcore := (sessionStep_frame X P.dangling (P.memory 0) s.core).2.2.1
    refine hkeep (sessionStep X P s) ?_ ?_ ?_
    · unfold sessionStep
      repeat' split
      all_goals first | rfl | exact hcore
    · unfold sessionStep
      repeat' split
      all_goals rfl
    · unfold sessionStep
      repeat' split
      all_goals exact List.prefix_rfl
  | toSession k => exact hkeep _ rfl rfl List.prefix_rfl
  | toDriver k => exact hkeep _ rfl rfl (List.prefix_append _ _)

/-- Only its own steps make the session less ready. -/
theorem sessionReady_stays (l : Label T) (s : State T) (hl : ∀ P, l ≠ .session P)
    (h : SessionReady s) : SessionReady ((wire X T).update l s) := by
  have hkeep : ∀ s' : State T, s'.core.session = s.core.session → s'.sessionIo = s.sessionIo →
      s.toSession.arrived <+: s'.toSession.arrived → SessionReady s' := by
    intro s' hs hio harrived
    refine ⟨by rw [hs]; exact h.1, fun hread hsend => ?_⟩
    rw [hs] at hread
    rw [hio] at hsend ⊢
    obtain ⟨n, hn, hle⟩ := h.2 hread hsend
    exact ⟨n, hn, hle.trans harrived.length_le⟩
  cases l with
  | issue t a draw t1 t2 u => exact hkeep _ rfl rfl List.prefix_rfl
  | caller t locked =>
    exact hkeep _ (callerStep_sameLoops X t locked s.core).session rfl List.prefix_rfl
  | session P => exact absurd rfl (hl P)
  | driver P =>
    have hcore : (PicoDB.driverStep X (P.memory 0) s.core).session = s.core.session := by
      unfold PicoDB.driverStep
      repeat' split
      all_goals rfl
    refine hkeep (driverStep X P s) ?_ ?_ ?_
    · unfold driverStep
      repeat' split
      all_goals first | rfl | exact hcore
    · unfold driverStep
      repeat' split
      all_goals rfl
    · unfold driverStep
      repeat' split
      all_goals exact List.prefix_rfl
  | toSession k => exact hkeep _ rfl rfl (List.prefix_append _ _)
  | toDriver k => exact hkeep _ rfl rfl List.prefix_rfl

/-! ## Every step of a loop is one nearer to the answer -/

/-- Nothing waits in the request queue, and nothing is on its way. -/
def Done (s : PicoDB.State T) : Prop := s.requestQueue = [] ∧ onTheWay s = []

/-- How many steps of the driver a request takes at most from here, give or
take. -/
def driverStage (s : State T) : Nat :=
  match s.core.driver with
  | .writing _ => 40
  | .reading =>
    match s.driverIo with
    | .sending _ => 30
    | .start => 20
    | .next _ => 10
  | .queueing _ => 5
  | .parked => 2
  | .testing => 1
  | .popping => 0
  | .halted => 0

/-- The same of the session, which has nothing to do before a frame is there. -/
def sessionStage (s : State T) : Nat :=
  match s.core.session with
  | .reading =>
    match s.sessionIo with
    | .sending _ => 2
    | .start => if s.core.toSession = [] then 0 else 8
    | .next _ => 7
  | .queueing _ => 6
  | .testing => 5
  | .popping => 4
  | .writing _ => 3
  | .parked => 0
  | .halted => 0

def variant (s : State T) : Nat :=
  100 * s.core.requestQueue.length + driverStage s + sessionStage s

omit [DecidableEq T] in
theorem sessionStage_le (s : State T) : sessionStage s ≤ 8 := by
  unfold sessionStage
  repeat' split
  all_goals omega

omit [DecidableEq T] in
theorem sessionStage_congr {s s' : State T} (hs : s'.core.session = s.core.session)
    (hio : s'.sessionIo = s.sessionIo) (hto : s'.core.toSession = s.core.toSession) :
    sessionStage s' = sessionStage s := by
  unfold sessionStage
  rw [hs, hio, hto]

omit [DecidableEq T] in
theorem driverStage_congr {s s' : State T} (hd : s'.core.driver = s.core.driver)
    (hio : s'.driverIo = s.driverIo) : driverStage s' = driverStage s := by
  unfold driverStage
  rw [hd, hio]

omit [DecidableEq T] in
/-- At home the token leaves nothing on the way. -/
theorem requestQueue_ne_nil {s : PicoDB.State T} (h : LockStep.Inv X s) (hdone : ¬ Done s)
    (hd : s.driver = .testing ∨ s.driver = .popping) : s.requestQueue ≠ [] := by
  obtain ⟨k, hat, -⟩ := h
  cases k with
  | home =>
    intro hnil
    exact hdone ⟨hnil, onTheWay_of_at hat⟩
  | _ => rcases hd with hd | hd <;> simp [At, hd] at hat

/-- Variant lemma of the driver. -/
theorem DriverMoves.lowers {s s' : State T} {P : Peer} (hm : DriverMoves X P s s') (h : Inv X s)
    (hfit : Fit X s.core) (hg : s.core.driver ≠ .halted) (hdone : ¬ Done s.core) :
    variant s' < variant s := by
  have hqueue := requestQueue_ne_nil (h.lockStep hfit) hdone
  cases hm with
  | @sends body hd hio =>
    have hsession : sessionStage { s with
        toSession := s.toSession.write body, driverIo := .start } = sessionStage s :=
      sessionStage_congr rfl rfl rfl
    simp only [variant, hsession, driverStage, hd, hio]
    omega
  | @readsHeader d rest hd hio hcarried =>
    have hsession : sessionStage { s with
        toDriver := { s.toDriver with arrived := rest }, driverIo := .next d } = sessionStage s :=
      sessionStage_congr rfl rfl rfl
    simp only [variant, hsession, driverStage, hd, hio]
    omega
  | @readsBody d f frames msg rest hd hio hframes hmsg hcarried =>
    have hcore : PicoDB.driverStep X (P.memory 0) s.core = { s.core with
        toDriver := frames, driver := .queueing ⟨s.core.fresh, msg⟩,
        fresh := s.core.fresh + 1, replies := s.core.replies ++ [f.body] } := by
      simp only [PicoDB.driverStep, hd, hframes, hmsg]
    rw [hcore]
    have hsession : sessionStage { s with
        core := { s.core with
          toDriver := frames, driver := .queueing ⟨s.core.fresh, msg⟩,
          fresh := s.core.fresh + 1, replies := s.core.replies ++ [f.body] }
        toDriver := { s.toDriver with arrived := rest }
        driverIo := .start } = sessionStage s := sessionStage_congr rfl rfl rfl
    simp only [variant, hsession, driverStage, hd, hio]
    omega
  | @writes r f hd hio hf hannounced =>
    have hcore : PicoDB.driverStep X (P.memory 0) s.core = { s.core with
        toSession := s.core.toSession ++ [f], driver := .reading,
        written := s.core.written ++ [f.body] } := by
      simp only [PicoDB.driverStep, hd, hf]
    rw [hcore]
    have hle := sessionStage_le { s with
      core := { s.core with
        toSession := s.core.toSession ++ [f], driver := .reading,
        written := s.core.written ++ [f.body] }
      toSession := s.toSession.write f.header
      driverIo := .sending f.body }
    simp only [variant, driverStage, hd] at hle ⊢
    omega
  | inside hio hread hwrite =>
    cases hd : s.core.driver with
    | reading => exact absurd hd hread
    | writing r => exact absurd hd (hwrite r)
    | halted => exact absurd hd hg
    | testing =>
      have hne := hqueue (Or.inl hd)
      simp only [variant, driverStage, sessionStage, PicoDB.driverStep, hd, if_neg hne]
      omega
    | parked =>
      simp only [variant, driverStage, sessionStage, PicoDB.driverStep, hd]
      omega
    | queueing msg =>
      simp only [variant, driverStage, sessionStage, PicoDB.driverStep, hd]
      omega
    | popping =>
      -- the request it pops is one less in the queue
      rcases List.eq_nil_or_concat s.core.requestQueue with hnil | ⟨rest, r, hr⟩
      · exact absurd hnil (hqueue (Or.inr hd))
      · rw [List.concat_eq_append] at hr
        have hpop : pop s.core.requestQueue = (some r, rest) := by simp [pop, hr]
        simp only [variant, driverStage, sessionStage, PicoDB.driverStep, hd, hpop]
        rw [hr, List.length_append, List.length_singleton]
        omega

/-- While the session has a body to send, the frame is on its way back. -/
theorem toSession_nil_of_sending {s : State T} (h : Inv X s) (hfit : Fit X s.core) {body : Bytes}
    (hio : s.sessionIo = .sending body) : s.core.toSession = [] := by
  have hbody := h.sessionIo.2 body hio
  have hframe : s.core.toDriver ≠ [] := by
    intro hnil
    have hbytes := h.toDriver.bytes
    rw [hnil, hio] at hbytes
    have hunsent : s.toDriver.arrived ++ s.toDriver.underWay ++ body = [] := by
      cases hd : s.driverIo with
      | next d =>
        rw [hd] at hbytes
        obtain ⟨f, rest, heq, -⟩ := hbytes
        cases heq
      | start =>
        rw [hd] at hbytes
        exact hbytes
      | sending body' =>
        rw [hd] at hbytes
        exact hbytes
    exact hbody (List.append_eq_nil_iff.mp hunsent).2
  rcases h.lockStep hfit with ⟨k, hat, -⟩
  cases k with
  | sent b =>
    obtain ⟨-, -, ⟨f, -, -, -, hback⟩, -⟩ := hat
    exact absurd hback hframe
  | answered b =>
    obtain ⟨-, -, ⟨f, -, hto, -⟩, -⟩ := hat
    exact hto
  | home => exact absurd hat.2.2.1.2.2 hframe
  | taken b => exact absurd hat.2.2.1.2.2 hframe
  | parsed b => exact absurd hat.2.2.1.2.2 hframe
  | queued b => exact absurd hat.2.2.1.2.2 hframe
  | popped b => exact absurd hat.2.2.1.2.2 hframe
  | arrived b => exact absurd hat.2.2.1.2.2 hframe

/-- Variant lemma of the session. -/
theorem SessionMoves.lowers {s s' : State T} {P : Peer} (hm : SessionMoves X P s s') (h : Inv X s)
    (hfit : Fit X s.core) (hg : s.core.session ≠ .halted) : variant s' < variant s := by
  rcases h.lockStep hfit with ⟨k, hat, -⟩
  have hbuffer := bufferQueue_of_at hat
  cases hm with
  | @sends body hs hio =>
    have hdriver : driverStage { s with
        toDriver := s.toDriver.write body, sessionIo := .start } = driverStage s :=
      driverStage_congr rfl rfl
    have hto := toSession_nil_of_sending h hfit hio
    simp only [variant, hdriver, sessionStage, hs, hio, if_pos hto]
    omega
  | @readsHeader d rest hs hio hcarried =>
    have hdriver : driverStage { s with
        toSession := { s.toSession with arrived := rest }, sessionIo := .next d } =
          driverStage s := driverStage_congr rfl rfl
    -- a header was there to read
    have hto : s.core.toSession ≠ [] := by
      obtain ⟨f, frames, hframes, -⟩ := hcarried.bytes
      rw [hframes]
      simp
    simp only [variant, hdriver, sessionStage, hs, hio, if_neg hto]
    omega
  | @readsBody d f frames msg rest hs hio hframes hmsg hcarried =>
    have hcore : PicoDB.sessionStep X P.dangling (P.memory 0) s.core = { s.core with
        toSession := frames, session := .queueing msg } := by
      simp only [PicoDB.sessionStep, hs, hframes, hmsg]
    rw [hcore]
    have hdriver : driverStage { s with
        core := { s.core with toSession := frames, session := .queueing msg }
        toSession := { s.toSession with arrived := rest }
        sessionIo := .start } = driverStage s := driverStage_congr rfl rfl
    simp only [variant, hdriver, sessionStage, hs, hio]
    omega
  | @writes r f hs hio hf hannounced =>
    have hcore : PicoDB.sessionStep X P.dangling (P.memory 0) s.core = { s.core with
        toDriver := s.core.toDriver ++ [f], session := .reading } := by
      simp only [PicoDB.sessionStep, hs, hf]
    rw [hcore]
    have hdriver : driverStage { s with
        core := { s.core with toDriver := s.core.toDriver ++ [f], session := .reading }
        toDriver := s.toDriver.write f.header
        sessionIo := .sending f.body } = driverStage s := driverStage_congr rfl rfl
    simp only [variant, hdriver, sessionStage, hs]
    omega
  | inside hio hread hwrite =>
    cases hs : s.core.session with
    | reading => exact absurd hs hread
    | writing r => exact absurd hs (hwrite r)
    | halted => exact absurd hs hg
    | parked => exact absurd hs hbuffer.2.2.2
    | testing =>
      have hne := hbuffer.2.2.1 hs
      simp only [variant, driverStage, sessionStage, PicoDB.sessionStep, hs, if_neg hne]
      omega
    | queueing reply =>
      simp only [variant, driverStage, sessionStage, PicoDB.sessionStep, hs]
      omega
    | popping =>
      have hpop : ∃ r, pop s.core.bufferQueue = (some r, []) := by
        cases k with
        | queued b =>
          obtain ⟨-, -, ⟨-, hbuf, -⟩, -⟩ := hat
          exact ⟨_, by rw [hbuf]; rfl⟩
        | _ => simp [At, hs] at hat
      obtain ⟨r, hr⟩ := hpop
      simp only [variant, driverStage, sessionStage, PicoDB.sessionStep, hs, hr]
      omega

/-! ## Paths -/

/-- An application thread issues a request. -/
def Label.IsIssue : Label T → Prop
  | .issue _ _ _ _ _ _ => True
  | _ => False

/-- A step of one of the two loops. -/
def Label.IsLoop : Label T → Prop
  | .driver _ => True
  | .session _ => True
  | _ => False

/-- Again and again everything that was written has arrived, and a loop that can
go on does. -/
structure Fair (π : Path (wire X T)) : Prop where
  driver : ∀ k, ∃ j, k ≤ j ∧
    ((∃ l, π.label j = some l ∧ ∃ P, l = .driver P) ∨ ¬ DriverReady (π.state j))
  session : ∀ k, ∃ j, k ≤ j ∧
    ((∃ l, π.label j = some l ∧ ∃ P, l = .session P) ∨ ¬ SessionReady (π.state j))
  toSession : ∀ k, ∃ j, k ≤ j ∧ (π.state j).toSession.underWay = []
  toDriver : ∀ k, ∃ j, k ≤ j ∧ (π.state j).toDriver.underWay = []

/-- The steps of the path are intact, and none of them issues a request. -/
def Settles (π : Path (wire X T)) : Prop :=
  ∀ k l, π.label k = some l → Intact (π.state k) l ∧ ¬ l.IsIssue

theorem issued_of_not_isIssue (l : Label T) (hl : ¬ l.IsIssue) (s : State T) :
    ((wire X T).update l s).core.issued = s.core.issued := by
  cases l with
  | issue t a draw t1 t2 u => exact absurd trivial hl
  | caller t locked => exact (callerStep_sameLoops X t locked s.core).issued
  | driver P => exact (driverStep_calls P s).issued
  | session P => exact (sessionStep_calls P s).issued
  | toSession k => rfl
  | toDriver k => rfl

section Paths

variable {π : Path (wire X T)}

/-- The invariant, and the requests there were at first, hold all along. -/
theorem inv_of_path (hinv : Inv X (π.state 0)) (hfit : Fit X (π.state 0).core)
    (hsettles : Settles π) (k : Nat) :
    Inv X (π.state k) ∧ Fit X (π.state k).core ∧
      (π.state k).core.issued = (π.state 0).core.issued := by
  refine π.invariant_from (fun s l => Intact s l ∧ ¬ l.IsIssue)
    (fun s => Inv X s ∧ Fit X s.core ∧ s.core.issued = (π.state 0).core.issued)
    ⟨hinv, hfit, rfl⟩ ?_ k (Nat.zero_le k) fun i _ _ l hl => hsettles i l hl
  intro l s hg hC ⟨hi, hf, heq⟩
  have hissued := issued_of_not_isIssue (X := X) l hC.2 s
  refine ⟨step_inv l hg hC.1 hf hi, fun m hm => hf m (hissued ▸ hm), hissued.trans heq⟩

/-- **Progress.** A loop takes a step again and again. -/
theorem loop_goes_on (hfair : Fair π) (hinv : ∀ k, Inv X (π.state k) ∧ Fit X (π.state k).core)
    (k : Nat) : ∃ j, k ≤ j ∧ ∃ l, π.label j = some l ∧ l.IsLoop := by
  by_contra hnever
  have hnone : ∀ i, k ≤ i → ∀ l, π.label i = some l → ¬ l.IsLoop :=
    fun i hi l hl hloop => hnever ⟨i, hi, l, hl, hloop⟩
  -- everything arrives in both directions, and then one of the loops is ready
  obtain ⟨i, hki, hup⟩ := hfair.toSession k
  obtain ⟨j, hij, hdown⟩ := hfair.toDriver i
  have hup' : (π.state j).toSession.underWay = [] := by
    refine π.invariant_from (fun _ l => ¬ Label.IsLoop l) (fun s => s.toSession.underWay = []) hup
      ?_ j hij fun i' hi' _ => hnone i' (hki.trans hi')
    intro l s _ hl hs
    cases l with
    | driver P => exact absurd trivial hl
    | session P => exact absurd trivial hl
    | toSession n =>
      change s.toSession.underWay.drop n = []
      rw [hs, List.drop_nil]
    | issue t a draw t1 t2 u => exact hs
    | caller t locked => exact hs
    | toDriver n => exact hs
  have hkj : k ≤ j := hki.trans hij
  rcases ready_of_settled (hinv j).1 (hinv j).2 hup' hdown with hready | hready
  · obtain ⟨j', hj', -, l, hl, P, rfl⟩ := π.taken_of_ready DriverReady (fun l => ∃ P, l = .driver P)
      hfair.driver (fun l s _ hl hs => driverReady_stays l s (fun P h => hl ⟨P, h⟩) hs) hready
    exact hnone j' (hkj.trans hj') _ hl trivial
  · obtain ⟨j', hj', -, l, hl, P, rfl⟩ := π.taken_of_ready SessionReady
      (fun l => ∃ P, l = .session P) hfair.session
      (fun l s _ hl hs => sessionReady_stays l s (fun P h => hl ⟨P, h⟩) hs) hready
    exact hnone j' (hkj.trans hj') _ hl trivial

/-- A step that does not bring the requests nearer does not take them away. -/
theorem variant_step (l : Label T) {s : State T} (hg : (wire X T).guard l s)
    (hC : (Inv X s ∧ Fit X s.core) ∧ Intact s l ∧ ¬ l.IsIssue) (hdone : ¬ Done s.core) :
    variant ((wire X T).update l s) ≤ variant s ∧
      (l.IsLoop → variant ((wire X T).update l s) < variant s) := by
  obtain ⟨⟨hi, hf⟩, hintact, hissue⟩ := hC
  have hother : variant ((wire X T).update l s) = variant s → ¬ l.IsLoop →
      variant ((wire X T).update l s) ≤ variant s ∧
        (l.IsLoop → variant ((wire X T).update l s) < variant s) :=
    fun h hl => ⟨h.le, fun hloop => absurd hloop hl⟩
  cases l with
  | issue t a draw t1 t2 u => exact absurd trivial hissue
  | caller t locked =>
    have hsame := callerStep_sameLoops X t locked s.core
    refine hother ?_ fun h => h
    change variant { s with core := callerStep X t locked s.core } = variant s
    simp only [variant, driverStage, sessionStage, hsame.driver, hsame.session, hsame.toSession,
      hsame.requestQueue]
  | driver P =>
    have hlower := (driverStep_moves hi hf hg hintact).lowers hi hf hg.1 hdone
    exact ⟨hlower.le, fun _ => hlower⟩
  | session P =>
    have hlower := (sessionStep_moves hi hf hg hintact).lowers hi hf hg.1
    exact ⟨hlower.le, fun _ => hlower⟩
  | toSession k => exact hother rfl fun h => h
  | toDriver k => exact hother rfl fun h => h

/-- Everything that was issued gets done. -/
theorem done_of_fair (hinv : Inv X (π.state 0)) (hfit : Fit X (π.state 0).core)
    (hsettles : Settles π) (hfair : Fair π) : ∃ k, Done (π.state k).core := by
  have hpath := inv_of_path hinv hfit hsettles
  have hboth : ∀ k, Inv X (π.state k) ∧ Fit X (π.state k).core := fun k =>
    ⟨(hpath k).1, (hpath k).2.1⟩
  by_cases hdone : Done (π.state 0).core
  · exact ⟨0, hdone⟩
  · obtain ⟨k, -, hk⟩ := π.until_of_variant (fun s => ¬ Done s.core) (fun _ s' => Done s'.core)
      (fun s l => (Inv X s ∧ Fit X s.core) ∧ Intact s l ∧ ¬ l.IsIssue) Label.IsLoop variant hdone
      (fun k _ l hl => ⟨hboth k, hsettles k l hl⟩) (fun k _ => loop_goes_on hfair hboth k)
      (fun l s hg hC hp => by
        by_cases hnext : Done ((wire X T).update l s).core
        · exact Or.inl hnext
        · exact Or.inr ⟨hnext, (variant_step l hg hC hp).1⟩)
      (fun l s hg hC hl hp => Or.inr ((variant_step l hg hC hp).2 hl))
    exact ⟨k + 1, hk⟩

end Paths

/-- Where everything is done, the response to each request waits in
`responseQueue_` or was returned. -/
theorem responses_of_done {scanDouble : Bytes → Option UInt64} {stdHash : Bytes → UInt64}
    {s : State T} (hinv : Inv (jsoncpp scanDouble stdHash) s)
    (hplain : ∀ m ∈ s.core.issued, Plain m) (hids : Distinct s.core) (hdone : Done s.core)
    {m : PicoMessage} (hm : m ∈ s.core.issued) :
    m.readAs (jsoncpp scanDouble stdHash) m.json_form_of_message ∈ responses s.core := by
  have hecho : ∀ m ∈ s.core.issued, Echoed (jsoncpp scanDouble stdHash) m := fun m hm =>
    (echoed_of_plain hinv.reachable hm (hplain m hm)).2
  -- its body is at one of the places, and only two kinds of places are left
  have hplace : m.json_form_of_message ∈ places s.core :=
    (conserved hinv.reachable hecho hids).bodies.mem_iff.mpr (List.mem_map_of_mem hm)
  rw [places, hdone.1, hdone.2, List.map_nil, List.nil_append, List.nil_append] at hplace
  obtain ⟨r, hr, heq⟩ : ∃ r ∈ responses s.core,
      r.json_form_of_message = m.json_form_of_message := by
    rcases List.mem_append.mp hplace with hp | hp
    · rcases List.mem_map.mp hp with ⟨p, hp, heq⟩
      exact ⟨p.val, List.mem_map_of_mem (List.mem_append_left _ hp), heq⟩
    · rcases List.mem_map.mp hp with ⟨e, he, heq⟩
      exact ⟨e.2.val, List.mem_map_of_mem (List.mem_append_right _ (List.mem_map_of_mem he)), heq⟩
  rw [← content_of_response hinv.reachable hplain hids hr hm heq]
  exact hr

/-- What holds at the start of a path of what was issued holds all along it. -/
theorem assumed_of_path {π : Path (wire X T)} {k : Nat}
    (hissued : (π.state k).core.issued = (π.state 0).core.issued)
    (hdeliverable : Deliverable (π.state 0).core) (hids : Distinct (π.state 0).core) :
    (∀ m ∈ (π.state k).core.issued, Plain m) ∧ Distinct (π.state k).core := by
  rw [Distinct, hissued]
  exact ⟨fun m hm => (hdeliverable m hm).1, hids⟩

/-- **Every request is answered.** On every fair path whose steps are intact and
issue nothing more, from wherever such steps lead, with deliverable requests of
distinct ids: there is a moment when each of them has its response, with what
was read from the text of the request, in `responseQueue_` or returned. -/
theorem all_answered {scanDouble : Bytes → Option UInt64} {stdHash : Bytes → UInt64}
    {π : Path (wire (jsoncpp scanDouble stdHash) T)} {tr : List (State T × Label T)}
    (hrun : Run (wire (jsoncpp scanDouble stdHash) T) tr (π.state 0))
    (hintact : ∀ p ∈ tr, Intact p.1 p.2) (hdeliverable : Deliverable (π.state 0).core)
    (hids : Distinct (π.state 0).core) (hsettles : Settles π) (hfair : Fair π) :
    ∃ k, ∀ m ∈ (π.state 0).core.issued,
      m.readAs (jsoncpp scanDouble stdHash) m.json_form_of_message ∈
        responses (π.state k).core := by
  have hfit := fit_of_deliverable hrun hdeliverable
  have hinv := inv_of_run hrun hintact hfit
  obtain ⟨k, hdone⟩ := done_of_fair hinv hfit hsettles hfair
  obtain ⟨hinvk, -, hissued⟩ := inv_of_path hinv hfit hsettles k
  obtain ⟨hplain, hidsk⟩ := assumed_of_path hissued hdeliverable hids
  refine ⟨k, fun m hm => ?_⟩
  rw [← hissued] at hm
  exact responses_of_done hinvk hplain hidsk hdone hm

/-- With everything answered, the driver waits for the next request. -/
def resting (s : State Bool) (k : Nat) : State Bool :=
  { s with core := { s.core with driver := if k % 2 = 0 then .testing else .parked } }

theorem resting_step {s : State Bool} (hqueue : s.core.requestQueue = []) (k : Nat) :
    (wire library Bool).update (.driver quiet) (resting s k) = resting s (k + 1) := by
  have hmod : k % 2 = 0 ∨ k % 2 = 1 := by omega
  change driverStep library quiet (resting s k) = _
  rcases hmod with h | h
  · have h' : (k + 1) % 2 ≠ 0 := by omega
    simp only [resting, driverStep, PicoDB.driverStep, h, h', if_true, if_false, hqueue]
  · have h' : (k + 1) % 2 = 0 := by omega
    have hne : k % 2 ≠ 0 := by omega
    simp only [resting, driverStep, PicoDB.driverStep, h', hne, if_true, if_false]

theorem resting_streams (s : State Bool) (k : Nat) :
    (resting s k).toSession = s.toSession ∧ (resting s k).toDriver = s.toDriver := ⟨rfl, rfl⟩

theorem resting_not_reading (s : State Bool) (k : Nat) :
    (resting s k).core.driver ≠ .reading ∧ (resting s k).core.driver ≠ .halted := by
  simp only [resting]
  split <;> simp

/-- The path on which it wakes up and finds nothing, again and again. -/
def restingPath (s : State Bool) (hqueue : s.core.requestQueue = []) :
    Path (wire library Bool) where
  state := resting s
  label _ := some (.driver quiet)
  fires k l hl := by
    cases hl
    exact ⟨⟨(resting_not_reading s k).2, fun h => absurd h (resting_not_reading s k).1⟩,
      (resting_step hqueue k).symm⟩
  stutters k hk := by cases hk

theorem restingPath_callers (s : State Bool) (hqueue : s.core.requestQueue = []) (k : Nat) :
    ((restingPath s hqueue).state k).core.callers = s.core.callers := rfl

theorem not_sessionReady_resting {s : State Bool} (hs : s.core.session = .reading)
    (hio : s.sessionIo = .start) (hto : s.toSession = {}) (k : Nat) :
    ¬ SessionReady (resting s k) := by
  rintro ⟨-, hready⟩
  obtain ⟨n, hn, hle⟩ := hready hs (by rw [resting, hio]; rfl)
  simp only [resting, hio, hto, List.length_nil] at hn hle
  have hten : Session.sizeToRead Io.start.dataSizeToReadNext = .ok 10 :=
    Session.faithful 10 (by norm_num) (by norm_num)
  rw [hten] at hn
  cases hn
  omega

/-- A path: the requests are pending at first, and answered later on. Behind the
run there are steps of the driver only. -/
theorem exists_wirePath : ∃ π : Path (wire library Bool), π.state 0 = wireStart ∧
    (Settles π ∧ Fair π) ∧
    ∀ k, (π.state (wireRest.length + k)).core.callers = wireEnd.core.callers ∧
      π.label (wireRest.length + k) = some (.driver quiet) := by
  obtain ⟨⟨hfires, -⟩, -, ⟨hd, hqueue, hs, hio, hto, hback⟩, -⟩ := wireRun_fires
  have hsplit := fires_append.mp hfires
  have hend : resting wireEnd 0 = after (wire library Bool) wireRest wireStart := by
    rw [wireStart, ← after_append]
    change resting wireEnd 0 = wireEnd
    simp only [resting, Nat.zero_mod, if_true, ← hd]
  obtain ⟨π, hzero, htail, hfront⟩ := Path.exists_after wireRest wireStart hsplit.2
    (restingPath wireEnd hqueue) hend
  have htrace := trace_append (wire library Bool) wireIssue wireRest {}
  have hissue : ∀ l ∈ wireRest, ¬ l.IsIssue := by
    simp [wireRest, piecemeal, atOnce, looks, Label.IsIssue]
  -- a moment is one of the run or one of the rest
  have hsettles : Settles π := by
    intro k l hl
    by_cases hk : k < wireRest.length
    · obtain ⟨p, hp, hstate, hlabel⟩ := hfront k hk
      rw [hlabel] at hl
      cases hl
      rw [hstate]
      exact ⟨wireRun_intact p (htrace ▸ List.mem_append_right _ hp),
        hissue _ (mem_of_mem_trace hp)⟩
    · obtain ⟨j, rfl⟩ := Nat.exists_eq_add_of_le (Nat.le_of_not_lt hk)
      rw [(htail j).2] at hl
      cases hl
      rw [(htail j).1]
      exact ⟨⟨⟨rfl, fun h => absurd h (resting_not_reading wireEnd j).1⟩, trivial⟩, id⟩
  have hfair : Fair π := by
    constructor
    · exact fun k => ⟨_, Nat.le_add_left k _, Or.inl ⟨_, (htail k).2, quiet, rfl⟩⟩
    · refine fun k => ⟨_, Nat.le_add_left k wireRest.length, Or.inr ?_⟩
      rw [(htail k).1]
      exact not_sessionReady_resting hs hio hto k
    · refine fun k => ⟨_, Nat.le_add_left k wireRest.length, ?_⟩
      rw [(htail k).1]
      change (resting wireEnd k).toSession.underWay = []
      rw [(resting_streams wireEnd k).1, hto]
    · refine fun k => ⟨_, Nat.le_add_left k wireRest.length, ?_⟩
      rw [(htail k).1]
      change (resting wireEnd k).toDriver.underWay = []
      rw [(resting_streams wireEnd k).2, hback]
  refine ⟨π, hzero, ⟨hsettles, hfair⟩, fun k => ⟨?_, (htail k).2⟩⟩
  rw [(htail k).1, restingPath_callers]

/-- What is asked of the start of that path. -/
theorem wireStart_run :
    (Run (wire library Bool) (trace (wire library Bool) wireIssue {}) wireStart ∧
      ∀ p ∈ trace (wire library Bool) wireIssue {}, Intact p.1 p.2) ∧
    Deliverable wireStart.core ∧ Distinct wireStart.core := by
  obtain ⟨⟨hfires, -⟩, -, -, -, hissued⟩ := wireRun_fires
  have htrace := trace_append (wire library Bool) wireIssue wireRest {}
  refine ⟨⟨run_of_fires rfl (fires_append.mp hfires).1, fun p hp => ?_⟩, ?_, ?_⟩
  · exact wireRun_intact p (htrace ▸ List.mem_append_left _ hp)
  · rw [Deliverable, hissued]
    exact deliverable_wireEnd
  · rw [Distinct, hissued]
    exact distinct_wireEnd

theorem all_answered_wireRun :
    ∃ π : Path (wire library Bool), (π.state 0).core.requestQueue.length = 2 ∧
      ∃ k, ∀ m ∈ (π.state 0).core.issued,
        m.readAs library m.json_form_of_message ∈ responses (π.state k).core := by
  obtain ⟨π, hzero, ⟨hsettles, hfair⟩, -⟩ := exists_wirePath
  obtain ⟨⟨hrun, hintact⟩, hdeliverable, hids⟩ := wireStart_run
  obtain ⟨-, -, -, hlength, -⟩ := wireRun_fires
  rw [← hzero] at hrun hdeliverable hids hlength
  exact ⟨π, hlength, all_answered hrun hintact hdeliverable hids hsettles hfair⟩

end PicoDB.Wire
