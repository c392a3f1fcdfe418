import PicoDB.Json

/-!
# PicoDB.Message — `pico_message.h`

A message is built from fields, which prints it as JSON, or parsed from the JSON
it arrived in. Two things come from outside: the JSON reader and
`std::hash<std::string>`; they are the `Externals` of the whole development.

`isThisRecordASizeInfo_build_iff` says when the record of a message built from
fields passes for a size info: exactly when a field it was built from shows
four `'#'` in a row.
-/

namespace PicoDB

/-- The library code a message needs. -/
structure Externals where
  /-- `Json::Reader::parse` -/
  parse : Json.Reader
  /-- `std::hash<std::string>` -/
  stdHash : Bytes → UInt64

/-- `pico_message`. -/
structure PicoMessage where
  key : Bytes := []
  value : Bytes := []
  oldvalue : Bytes := []
  user : Bytes := []
  db : Bytes := []
  command : Bytes := []
  messageId : Bytes := []
  collection : Bytes := []
  json_form_of_message : Bytes := []
  hashCodeOfMessage : Bytes := []
deriving DecidableEq, Repr

namespace PicoMessage

/-- `set_hash_code`. -/
def setHashCode (X : Externals) (m : PicoMessage) : PicoMessage :=
  let h1 := X.stdHash m.user
  let h2 := X.stdHash m.db
  let h3 := X.stdHash m.command
  let h4 := X.stdHash m.collection
  let h5 := X.stdHash m.key
  let h6 := X.stdHash m.value
  let h7 := X.stdHash m.oldvalue
  let hash_code := h1 ^^^ (h2 <<< 1) ^^^ h3 ^^^ h4 ^^^ h5 ^^^ h6 ^^^ h7
  { m with hashCodeOfMessage := convertToString hash_code.toNat }

/-- The assignments to `root` in `convert_message_to_json`, in their order. -/
def assignments (m : PicoMessage) : List (Bytes × Bytes) :=
  [(ascii "key", m.key), (ascii "value", m.value), (ascii "oldvalue", m.oldvalue),
    (ascii "db", m.db), (ascii "user", m.user), (ascii "collection", m.collection),
    (ascii "command", m.command), (ascii "messageId", m.messageId),
    (ascii "hashCode", m.hashCodeOfMessage)]

/-- The members of `root` once they are all made. -/
def members (m : PicoMessage) : List (Bytes × Bytes) :=
  m.assignments.foldl (fun root a => Json.setMember a.1 a.2 root) []

/-- `convert_message_to_json`. -/
def convertMessageToJson (m : PicoMessage) : Bytes := Json.StyledWriter.write m.members

/-- `getCompleteMessageInJsonAsOnBuffer`. -/
def getCompleteMessageInJsonAsOnBuffer (m : PicoMessage) : PicoRecord :=
  .ofString m.json_form_of_message

/-- `toString`. -/
def toString (m : PicoMessage) : Bytes := m.json_form_of_message

/-- The end of every field constructor: the JSON is made before the hash code
is set, so the `"hashCode"` it carries is still empty. -/
def complete (X : Externals) (m : PicoMessage) : PicoMessage :=
  setHashCode X { m with json_form_of_message := m.convertMessageToJson }

/-- `pico_message(message_from_client)`. -/
def ofJson (X : Externals) (message_from_client : Bytes) : Except Fault PicoMessage :=
  match X.parse message_from_client with
  | none => .error (.assertion .parsingSuccessful)
  | some root => do
    let unknown := Json.Value.stringValue (ascii "unknown")
    let couldntparseit := Json.Value.stringValue (ascii "couldntparseit")
    let command ← (← root.get (ascii "command") unknown).asString
    let messageId ← (← root.get (ascii "messageId") couldntparseit).asString
    let collection ← (← root.get (ascii "collection") unknown).asString
    let db ← (← root.get (ascii "db") unknown).asString
    let user ← (← root.get (ascii "user") unknown).asString
    let key ← (← root.get (ascii "key") unknown).asString
    let value ← (← root.get (ascii "value") unknown).asString
    let oldvalue ← (← root.get (ascii "oldvalue") unknown).asString
    .ok (setHashCode X
      { key, value, oldvalue, user, db, command, messageId, collection,
        json_form_of_message := message_from_client })

end PicoMessage

/-- The arguments of the three constructors that build a message from fields. -/
inductive FieldArgs where
  | insert (newKey newValue com database us col : Bytes)
  | update (newKey old_value_arg newValue com database us col : Bytes)
  | fromDB (keyFromDB valueFromDB messageIdArg : Bytes)
deriving DecidableEq, Repr

namespace FieldArgs

/-- The strings handed to the constructor. -/
def fields : FieldArgs → List Bytes
  | insert newKey newValue com database us col => [newKey, newValue, com, database, us, col]
  | update newKey old_value_arg newValue com database us col =>
    [newKey, old_value_arg, newValue, com, database, us, col]
  | fromDB keyFromDB valueFromDB messageIdArg => [keyFromDB, valueFromDB, messageIdArg]

/-- The members as the constructor sets them, before the JSON is made; `draw`
is what `calc_request_id` draws. -/
def assigned (draw : Fin 32 → Nat) : FieldArgs → PicoMessage
  | insert newKey newValue com database us col =>
    { command := com, collection := col, db := database, user := us, key := newKey,
      value := newValue, messageId := calcRequestId draw }
  | update newKey old_value_arg newValue com database us col =>
    { command := com, collection := col, db := database, user := us, key := newKey,
      oldvalue := old_value_arg, value := newValue, messageId := calcRequestId draw }
  | fromDB keyFromDB valueFromDB messageIdArg =>
    { command := ascii "unknown", collection := ascii "unknown", db := ascii "unknown",
      user := ascii "unknown", key := keyFromDB, value := valueFromDB, messageId := messageIdArg }

/-- The three constructors. -/
def build (X : Externals) (draw : Fin 32 → Nat) (a : FieldArgs) : PicoMessage :=
  (a.assigned draw).complete X

end FieldArgs

/-! ## The JSON of a message -/

namespace PicoMessage

/-- The members in the order the writer visits them. -/
theorem members_eq (m : PicoMessage) : m.members =
    [(ascii "collection", m.collection), (ascii "command", m.command), (ascii "db", m.db),
      (ascii "hashCode", m.hashCodeOfMessage), (ascii "key", m.key),
      (ascii "messageId", m.messageId), (ascii "oldvalue", m.oldvalue), (ascii "user", m.user),
      (ascii "value", m.value)] := rfl

theorem members_ne_nil (m : PicoMessage) : m.members ≠ [] := by simp [members_eq]

theorem zero_notMem_convertMessageToJson (m : PicoMessage) :
    (0 : Byte) ∉ m.convertMessageToJson :=
  Json.StyledWriter.zero_notMem_write m.members_ne_nil

theorem lt_length_convertMessageToJson (m : PicoMessage) : 2 < m.convertMessageToJson.length :=
  Json.StyledWriter.lt_length_write m.members_ne_nil

theorem hash_notMem_members {m : PicoMessage} : ∀ a ∈ m.members, hash ∉ a.1 := by
  rw [members_eq]
  simp only [List.forall_mem_cons, List.not_mem_nil, false_imp_iff, implies_true, and_true]
  decide

@[simp] theorem complete_json (X : Externals) (m : PicoMessage) :
    (m.complete X).json_form_of_message = m.convertMessageToJson := rfl

@[simp] theorem ofString_json (m : PicoMessage) :
    m.getCompleteMessageInJsonAsOnBuffer = .ofString m.json_form_of_message := rfl

/-- The parsed message keeps the text it was parsed from. -/
theorem ofJson_json {X : Externals} {s : Bytes} {m : PicoMessage} (h : ofJson X s = .ok m) :
    m.json_form_of_message = s := by
  unfold ofJson at h
  split at h
  · cases h
  · -- eight members are fetched and read as strings before the message is there
    iterate 16
      rcases bind_eq_ok h with ⟨_, -, h⟩
    cases h
    rfl

/-- The record of a message passes for a size info exactly when one of the
strings in its JSON has four `'#'` in a row. -/
theorem isThisRecordASizeInfo_complete_iff (X : Externals) (m : PicoMessage) :
    (m.complete X).getCompleteMessageInJsonAsOnBuffer.isThisRecordASizeInfo = true ↔
      ∃ a ∈ m.members, List.replicate 4 hash <:+: cString a.2 := by
  rw [PicoRecord.isThisRecordASizeInfo_iff]
  exact Json.StyledWriter.replicate_infix_write (by norm_num) m.members_ne_nil hash_notMem_members

end PicoMessage

/-- A request id shows no `'#'`. -/
theorem not_infix_calcRequestId (draw : Fin 32 → Nat) :
    ¬ List.replicate 4 hash <:+: cString (calcRequestId draw) := by
  refine Marker.not_replicate_infix (by norm_num) fun h => ?_
  have hmem := (List.takeWhile_sublist _).subset h
  exact absurd (isDigit_of_mem_calcRequestId hmem) (by decide)

/-- The record of a message built from fields passes for a size info exactly
when a field shows four `'#'` in a row before its first NUL. -/
theorem FieldArgs.isThisRecordASizeInfo_build_iff (X : Externals) (draw : Fin 32 → Nat)
    (a : FieldArgs) :
    (a.build X draw).getCompleteMessageInJsonAsOnBuffer.isThisRecordASizeInfo = true ↔
      ∃ s ∈ a.fields, List.replicate 4 hash <:+: cString s := by
  have hid := not_infix_calcRequestId draw
  have hempty : ¬ List.replicate 4 hash <:+: cString [] :=
    Marker.not_replicate_infix (by norm_num) (by decide)
  have hunknown : ¬ List.replicate 4 hash <:+: cString (ascii "unknown") :=
    Marker.not_replicate_infix (by norm_num) (by decide)
  rw [build, PicoMessage.isThisRecordASizeInfo_complete_iff, PicoMessage.members_eq]
  cases a with
  | insert newKey newValue com database us col =>
    simp only [assigned, fields, List.mem_cons, List.not_mem_nil, or_false, exists_eq_or_imp,
      exists_eq_left, hid, hempty, false_or]
    tauto
  | update newKey old_value_arg newValue com database us col =>
    simp only [assigned, fields, List.mem_cons, List.not_mem_nil, or_false, exists_eq_or_imp,
      exists_eq_left, hid, hempty, false_or]
    tauto
  | fromDB keyFromDB valueFromDB messageIdArg =>
    simp only [assigned, fields, List.mem_cons, List.not_mem_nil, or_false, exists_eq_or_imp,
      exists_eq_left, hunknown, hempty, false_or]
    tauto

end PicoDB
