import PicoDB.Message

/-!
# PicoDB.Codec — a message, its JSON, and the message parsed from that

What is assumed of jsoncpp is `ReadBack`: the reader makes of a written object
the object that was written, every value as the C string the writer takes it
for. Under it `ofJson_of_readBack` says what the parsing constructor makes of
the text of any message.

The hash code is set after the JSON is made, so the JSON never carries it;
`codec_law_fails` is about that, and about what does come back.
-/

namespace PicoDB

namespace PicoMessage

/-- The reader reads back what the writer wrote of `m`. -/
def ReadBack (X : Externals) (m : PicoMessage) : Prop :=
  X.parse m.convertMessageToJson =
    some (.objectValue (m.members.map fun a => (a.1, .stringValue (cString a.2))))

/-- Every field of `m` as a C string, with the text it was parsed from. -/
def asCStrings (m : PicoMessage) : PicoMessage where
  key := cString m.key
  value := cString m.value
  oldvalue := cString m.oldvalue
  user := cString m.user
  db := cString m.db
  command := cString m.command
  messageId := cString m.messageId
  collection := cString m.collection
  json_form_of_message := m.convertMessageToJson

/-- The `"hashCode"` member of a text. -/
def carriedHashCode (X : Externals) (json : Bytes) : Except Fault Bytes :=
  match X.parse json with
  | none => .error (.assertion .parsingSuccessful)
  | some root => do
    (← root.get (ascii "hashCode") .nullValue).asString

/-- `m'` has the eight fields and the hash code of `m`. -/
structure SameFields (m m' : PicoMessage) : Prop where
  key : m'.key = m.key
  value : m'.value = m.value
  oldvalue : m'.oldvalue = m.oldvalue
  db : m'.db = m.db
  user : m'.user = m.user
  collection : m'.collection = m.collection
  command : m'.command = m.command
  messageId : m'.messageId = m.messageId
  hashCodeOfMessage : m'.hashCodeOfMessage = m.hashCodeOfMessage

/-- The JSON of `m` is parsed to a message like `m`. -/
def RoundTrips (X : Externals) (m : PicoMessage) : Prop :=
  ∃ m', ofJson X m.json_form_of_message = .ok m' ∧ SameFields m m'

/-- The codec law: `m` round trips, and the hash code it carries is its own. -/
def CodecLaw (X : Externals) (m : PicoMessage) : Prop :=
  RoundTrips X m ∧ carriedHashCode X m.json_form_of_message = .ok m.hashCodeOfMessage

/-- A reader that reads one text back. -/
def readerOf (m : PicoMessage) : Externals where
  parse s :=
    if s = m.convertMessageToJson then
      some (.objectValue (m.members.map fun a => (a.1, .stringValue (cString a.2))))
    else none
  stdHash _ := 0

theorem readBack_readerOf (m : PicoMessage) : ReadBack (readerOf m) m := by
  simp [ReadBack, readerOf]

/-! ## What is parsed -/

/-- The parsing constructor on the text of a message. -/
theorem ofJson_of_readBack {X : Externals} {m : PicoMessage} (h : ReadBack X m) :
    ofJson X m.convertMessageToJson = .ok (m.asCStrings.setHashCode X) := by
  have hread : ofJson X m.convertMessageToJson =
      .ok (PicoMessage.setHashCode X
        { m.asCStrings.asCStrings with json_form_of_message := m.convertMessageToJson }) := by
    unfold ofJson
    rw [h, members_eq]
    rfl
  rw [hread]
  simp [asCStrings]

/-- The hash code in the text of a message. -/
theorem carriedHashCode_of_readBack {X : Externals} {m : PicoMessage} (h : ReadBack X m) :
    carriedHashCode X m.convertMessageToJson = .ok (cString m.hashCodeOfMessage) := by
  have hread : carriedHashCode X m.convertMessageToJson =
      .ok (cString (cString m.hashCodeOfMessage)) := by
    unfold carriedHashCode
    rw [h, members_eq]
    rfl
  rw [hread, cString_cString]

/-- Equal fields have equal hash codes. -/
theorem sameFields_setHashCode_iff (X : Externals) (m m' : PicoMessage) :
    SameFields (m.setHashCode X) (m'.setHashCode X) ↔
      m'.key = m.key ∧ m'.value = m.value ∧ m'.oldvalue = m.oldvalue ∧ m'.db = m.db ∧
        m'.user = m.user ∧ m'.collection = m.collection ∧ m'.command = m.command ∧
        m'.messageId = m.messageId := by
  simp only [setHashCode]
  constructor
  · intro hsame
    rcases hsame with ⟨hkey, hvalue, hold, hdb, huser, hcollection, hcommand, hid, -⟩
    exact ⟨hkey, hvalue, hold, hdb, huser, hcollection, hcommand, hid⟩
  · intro hfields
    rcases hfields with ⟨hkey, hvalue, hold, hdb, huser, hcollection, hcommand, hid⟩
    refine ⟨hkey, hvalue, hold, hdb, huser, hcollection, hcommand, hid, ?_⟩
    simp only [hkey, hvalue, hold, hdb, huser, hcollection, hcommand]

/-- What the end of a field constructor makes of `m` round trips exactly when
no field holds a NUL. -/
theorem roundTrips_complete_iff {X : Externals} {m : PicoMessage} (h : ReadBack X m) :
    RoundTrips X (m.complete X) ↔
      ∀ s ∈ [m.key, m.value, m.oldvalue, m.db, m.user, m.collection, m.command, m.messageId],
        (0 : Byte) ∉ s := by
  have hread : ofJson X (m.complete X).json_form_of_message = .ok (m.asCStrings.setHashCode X) :=
    ofJson_of_readBack h
  have hsame : RoundTrips X (m.complete X) ↔
      SameFields (m.complete X) (m.asCStrings.setHashCode X) := by
    constructor
    · intro htrips
      rcases htrips with ⟨m', hm', hfields⟩
      rw [hread] at hm'
      cases hm'
      exact hfields
    · intro hfields
      exact ⟨_, hread, hfields⟩
  rw [hsame, complete, sameFields_setHashCode_iff]
  simp only [asCStrings, cString_eq_self_iff, List.forall_mem_cons, List.not_mem_nil,
    false_imp_iff, implies_true, and_true]

theorem hashCodeOfMessage_complete_ne_nil (X : Externals) (m : PicoMessage) :
    (m.complete X).hashCodeOfMessage ≠ [] :=
  Decimal.print_ne_nil _

end PicoMessage

/-! ## The three constructors -/

namespace FieldArgs

open PicoMessage

theorem roundTrips_build_iff {X : Externals} {draw : Fin 32 → Nat} {a : FieldArgs}
    (h : ReadBack X (a.assigned draw)) :
    RoundTrips X (a.build X draw) ↔ ∀ s ∈ a.fields, (0 : Byte) ∉ s := by
  have hid := zero_notMem_calcRequestId draw
  have hunknown : (0 : Byte) ∉ ascii "unknown" := by decide
  rw [build, roundTrips_complete_iff h]
  simp only [List.forall_mem_cons, List.not_mem_nil, false_imp_iff, implies_true, and_true]
  cases a with
  | insert newKey newValue com database us col =>
    simp only [assigned, fields, List.forall_mem_cons, List.not_mem_nil, not_false_iff,
      false_imp_iff, implies_true, and_true, hid]
    tauto
  | update newKey old_value_arg newValue com database us col =>
    simp only [assigned, fields, List.forall_mem_cons, List.not_mem_nil, false_imp_iff,
      implies_true, and_true, hid, not_false_iff]
    tauto
  | fromDB keyFromDB valueFromDB messageIdArg =>
    simp [assigned, fields, hunknown]

/-- The text of a message built from fields carries no hash code. -/
theorem carriedHashCode_build {X : Externals} {draw : Fin 32 → Nat} {a : FieldArgs}
    (h : ReadBack X (a.assigned draw)) :
    carriedHashCode X (a.build X draw).json_form_of_message = .ok [] := by
  have hempty : (a.assigned draw).hashCodeOfMessage = [] := by
    cases a <;> rfl
  have hcarried := carriedHashCode_of_readBack h
  rw [hempty] at hcarried
  exact hcarried

/-- **Codec.** No message built from fields keeps the codec law: its text
carries an empty hash code. Its fields and its hash code come back exactly when
it was built from strings without NUL. -/
theorem codec_law_fails {X : Externals} {draw : Fin 32 → Nat} {a : FieldArgs}
    (h : ReadBack X (a.assigned draw)) :
    ¬ CodecLaw X (a.build X draw) ∧
      (RoundTrips X (a.build X draw) ↔ ∀ s ∈ a.fields, (0 : Byte) ∉ s) := by
  constructor
  · intro hlaw
    have hcarried := hlaw.2
    rw [carriedHashCode_build h] at hcarried
    injection hcarried with hempty
    exact hashCodeOfMessage_complete_ne_nil X (a.assigned draw) hempty.symm
  · exact roundTrips_build_iff h

/-- A reply to key `k`. -/
def sampleReply : FieldArgs := .fromDB (ascii "k") (ascii "v") (ascii "1")

theorem codec_law_fails_reply :
    let X := readerOf (sampleReply.assigned fun _ => 0)
    ¬ CodecLaw X (sampleReply.build X fun _ => 0) ∧
      (RoundTrips X (sampleReply.build X fun _ => 0) ↔ ∀ s ∈ sampleReply.fields, (0 : Byte) ∉ s) :=
  codec_law_fails (readBack_readerOf _)

/-- Where every string hashes to `0`, so does the reply; its text carries
nothing. -/
theorem hash_code_not_carried :
    let X := readerOf (sampleReply.assigned fun _ => 0)
    let m := sampleReply.build X fun _ => 0
    m.hashCodeOfMessage = ascii "0" ∧ carriedHashCode X m.json_form_of_message = .ok [] ∧
      ¬ CodecLaw X m := by
  intro X m
  have hhash : m.hashCodeOfMessage = ascii "0" := by decide +kernel
  have hcarried : carriedHashCode X m.json_form_of_message = .ok [] :=
    carriedHashCode_build (readBack_readerOf _)
  refine ⟨hhash, hcarried, ?_⟩
  intro hlaw
  have hequal := hlaw.2
  rw [hcarried, hhash] at hequal
  injection hequal with hempty
  exact absurd hempty (by decide)

end FieldArgs

end PicoDB
