import PicoDB.MessageText
import PicoDB.Responses

/-!
# PicoDB.Exchange — requests and responses, with the reader and writer they go through

The system of `PicoDB.System` over `jsoncpp`. A request that is no size info for
the readers is received by both sides with its fields as they were built, as C
strings (`receive_plain`); with the lock-step protocol and the places of a request this
gives the whole way of a request: every call that comes back has the fields of
its own request (`own_content`).
-/

namespace PicoDB.Exchange

open ConcurrentVector Lts LockStep Responses

variable {T : Type} {scanDouble : Bytes → Option UInt64} {stdHash : Bytes → UInt64}

/-- A request that is read as a message, and whose id no NUL cuts short. -/
structure Plain (m : PicoMessage) : Prop where
  notSizeInfo : m.getCompleteMessageInJsonAsOnBuffer.isThisRecordASizeInfo = false
  id : (0 : Byte) ∉ m.messageId

instance (m : PicoMessage) : Decidable (Plain m) :=
  decidable_of_iff (m.getCompleteMessageInJsonAsOnBuffer.isThisRecordASizeInfo = false ∧
    (0 : Byte) ∉ m.messageId) ⟨fun h => ⟨h.1, h.2⟩, fun h => ⟨h.notSizeInfo, h.id⟩⟩

theorem readAs_complete (X : Externals) (json : Bytes) (m : PicoMessage) :
    (m.complete X).readAs X json = m.readAs X json := by
  simp only [PicoMessage.complete, PicoMessage.setHashCode, PicoMessage.readAs,
    PicoMessage.asCStrings]

/-- What either side makes of a message it receives. -/
theorem receive_plain {m : PicoMessage} (h : Plain (m.complete (jsoncpp scanDouble stdHash))) :
    receive (jsoncpp scanDouble stdHash) m.convertMessageToJson =
      .ok (some (m.readAs (jsoncpp scanDouble stdHash) m.convertMessageToJson)) := by
  have hsize := h.notSizeInfo
  have hlong := m.lt_length_convertMessageToJson
  have hread := PicoMessage.ofJson_text scanDouble stdHash m []
  rw [List.append_nil] at hread
  rw [PicoMessage.getCompleteMessageInJsonAsOnBuffer, PicoMessage.complete_json] at hsize
  generalize m.convertMessageToJson = json at hsize hlong hread ⊢
  have hne : json ≠ [] := by
    rintro rfl
    simp at hlong
  have hverdict : processTheBufferJustRead (.ofString json) json.length = .ok (.message json) :=
    ReadSome.verdict_message (r := ⟨json.length, false, json⟩) hne hsize
  unfold receive
  rw [hverdict]
  change (PicoMessage.ofJson _ _).map some = _
  rw [hread]
  rfl

theorem readAs_messageId {X : Externals} {json : Bytes} {m : PicoMessage}
    (h : (0 : Byte) ∉ m.messageId) : (m.readAs X json).messageId = m.messageId :=
  cString_of_zero_notMem h

/-- The loops have not ended. -/
theorem not_halted_of_at {s : State T} {k : Token} (h : At s k) :
    s.driver ≠ .halted ∧ s.session ≠ .halted := by
  cases k with
  | home =>
    rcases h with ⟨hd | hd | ⟨hd, -⟩, hs, -⟩
    · simp [hd, hs]
    · simp [hd, hs]
    · simp [hd, hs]
  | taken b =>
    rcases h with ⟨⟨addr, hd⟩, hs, -⟩
    simp [hd, hs]
  | sent b => simp [h.1, h.2.1]
  | parsed b =>
    rcases h with ⟨hd, ⟨m, -, hs⟩, -⟩
    simp [hd, hs]
  | queued b =>
    rcases h with ⟨hd, hs | hs, -⟩
    · simp [hd, hs]
    · simp [hd, hs]
  | popped b => simp [h.1, h.2.1]
  | answered b => simp [h.1, h.2.1]
  | arrived b =>
    rcases h with ⟨⟨p, -, hd⟩, hs, -⟩
    simp [hd, hs]

variable [DecidableEq T]

/-- Every request was built from fields. -/
theorem built {X : Externals} {s : State T} (h : Reachable (system X T) s) :
    ∀ m ∈ s.issued, ∃ a draw, m = FieldArgs.build X draw a := by
  refine reachable_invariant
    (fun s : State T => ∀ m ∈ s.issued, ∃ a draw, m = FieldArgs.build X draw a) ?_ ?_ h
  · rintro s rfl m hm
    cases hm
  · intro l s _ hi
    cases l with
    | issue t a draw t1 t2 userTimeOut =>
      have hnew : ∃ a' draw', a.build X draw = FieldArgs.build X draw' a' := ⟨a, draw, rfl⟩
      exact List.forall_mem_append.mpr ⟨hi, List.forall_mem_singleton.mpr hnew⟩
    | caller t locked =>
      rw [update_caller, (callerStep_sameLoops X t locked s).issued]
      exact hi
    | driver M =>
      rw [update_driver, (driverStep_sameCalls X M s).issued]
      exact hi
    | session dangling M =>
      rw [update_session, (sessionStep_sameCalls X dangling M s).issued]
      exact hi

theorem echoed_of_plain {s : State T} (h : Reachable (system (jsoncpp scanDouble stdHash) T) s)
    {m : PicoMessage} (hm : m ∈ s.issued) (hplain : Plain m) :
    receive (jsoncpp scanDouble stdHash) m.json_form_of_message =
        .ok (some (m.readAs (jsoncpp scanDouble stdHash) m.json_form_of_message)) ∧
      Echoed (jsoncpp scanDouble stdHash) m := by
  obtain ⟨a, draw, rfl⟩ := built h m hm
  have hreceive := receive_plain hplain
  rw [← PicoMessage.complete_json (jsoncpp scanDouble stdHash),
    ← readAs_complete (jsoncpp scanDouble stdHash)] at hreceive
  exact ⟨hreceive, _, hreceive, readAs_messageId hplain.id⟩

/-- What the responses are: read from the text of a request, which says all
about them. -/
theorem content_of_response {s : State T}
    (h : Reachable (system (jsoncpp scanDouble stdHash) T) s) (hplain : ∀ m ∈ s.issued, Plain m)
    (hids : Distinct s) {r : PicoMessage} (hr : r ∈ responses s) {m : PicoMessage}
    (hm : m ∈ s.issued) (heq : r.json_form_of_message = m.json_form_of_message) :
    r = m.readAs (jsoncpp scanDouble stdHash) m.json_form_of_message := by
  have hecho : ∀ m ∈ s.issued, Echoed (jsoncpp scanDouble stdHash) m := fun m hm =>
    (echoed_of_plain h hm (hplain m hm)).2
  have hparsed : Parsed (jsoncpp scanDouble stdHash) r := by
    rcases List.mem_map.mp hr with ⟨p, hp, rfl⟩
    rcases List.mem_append.mp hp with hp | hp
    · exact (pointers h).parsed p hp
    · rcases List.mem_map.mp hp with ⟨e, he, rfl⟩
      exact (conserved h hecho hids).parsed e he
  rw [Parsed, heq, (echoed_of_plain h hm (hplain m hm)).1] at hparsed
  cases hparsed
  rfl

/-- In every reachable state whose requests are plain and have distinct ids:
what waits in `responseQueue_` or was returned is what was read from the text
of a request, and what a call returned is what was read from the text of its
own. -/
theorem own_content {s : State T} (h : Reachable (system (jsoncpp scanDouble stdHash) T) s)
    (hplain : ∀ m ∈ s.issued, Plain m) (hids : Distinct s) :
    (∀ r ∈ responses s, ∃ m ∈ s.issued,
        r = m.readAs (jsoncpp scanDouble stdHash) m.json_form_of_message) ∧
      ∀ e ∈ s.returned, e.1.msg ∈ s.issued ∧
        e.2.val = e.1.msg.readAs (jsoncpp scanDouble stdHash) e.1.msg.json_form_of_message := by
  have hecho : ∀ m ∈ s.issued, Echoed (jsoncpp scanDouble stdHash) m := fun m hm =>
    (echoed_of_plain h hm (hplain m hm)).2
  have hcalls := calls h hids
  refine ⟨?_, ?_⟩
  · intro r hr
    rcases request_of_response h hecho hids hr with ⟨m, hm, hjson, -⟩
    exact ⟨m, hm, content_of_response h hplain hids hr hm hjson⟩
  · intro e he
    have hresponse : e.2.val ∈ responses s :=
      List.mem_map_of_mem (List.mem_append_right _ (List.mem_map_of_mem he))
    obtain ⟨hmsg, hid⟩ := hcalls.returned e he
    rcases request_of_response h hecho hids hresponse with ⟨m, hm, hjson, hid'⟩
    -- the ids tell which request it is
    have hsame : m = e.1.msg := List.inj_on_of_nodup_map hids hm hmsg (hid'.symm.trans hid)
    subst hsame
    exact ⟨hmsg, content_of_response h hplain hids hresponse hmsg hjson⟩

end PicoDB.Exchange
