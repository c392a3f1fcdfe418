import PicoDB.Message

/-!
# PicoDB.RequestProcessor — `request_processor.h`

`processRequest` dispatches on the command of a request. Two things are read
before anything has set them, the result of an operation on a collection and
the record `getOneMessage` prints; they are `Unset` here. A null pointer that is
dereferenced ends the call, and so does a `Fault`.

The trace output at the end of `processRequest` is always on and dereferences
the reply. So a call comes back exactly when there is one, and
`each_request_answered_iff` says which requests that makes.
-/

namespace PicoDB

namespace RequestProcessor

/-- What is read without having been set. -/
structure Unset where
  /-- in `createCollection` and `deleteCollection` -/
  resultOfOperation : Bool
  /-- `firstrecord.toString()` in `getOneMessage` -/
  firstrecord : Except Fault Bytes

/-- How a call does not come back. -/
inductive Crash where
  | fault (f : Fault)
  /-- a null pointer is dereferenced -/
  | nullPointer
deriving DecidableEq, Repr

/-- `msgPtr`. -/
abbrev MsgPtr := Option PicoMessage

/-- `*msg`. -/
def deref : MsgPtr → Except Crash PicoMessage
  | some msg => .ok msg
  | none => .error .nullPointer

/-! ## Commands -/

def insertCommand : Bytes := ascii "insert"
def deleteCommand : Bytes := ascii "delete"
def updateCommand : Bytes := ascii "update"
def findCommand : Bytes := ascii "find"
def getCommand : Bytes := ascii "get"
def addUserToDBCommand : Bytes := ascii "adduser"
def deleteUserToDBCommand : Bytes := ascii "deleteuser"
def deleteCollectionCommand : Bytes := ascii "deleteCollection"
def createCollectionCommand : Bytes := ascii "createCollection"

/-! ## Replies -/

/-- `new pico_message(key, result, picoMsg->messageId)`; no id is drawn. -/
def reply (X : Externals) (key result : Bytes) (picoMsg : PicoMessage) : PicoMessage :=
  (FieldArgs.fromDB key result picoMsg.messageId).build X fun _ => 0

/-- The two functions on collections, with the texts for the two results. -/
def collectionReply (X : Externals) (U : Unset) (done notDone : Bytes) (picoMsg : PicoMessage) :
    MsgPtr :=
  let result := ascii "collection " ++ picoMsg.collection ++
    if U.resultOfOperation then done else notDone
  -- `std::string key("SUCCESS")` is a variable of the block, not the one that is sent
  let key := if U.resultOfOperation then [] else ascii "FAILURE"
  some (reply X key result picoMsg)

def createCollection (X : Externals) (U : Unset) (picoMsg : PicoMessage) : MsgPtr :=
  collectionReply X U (ascii " was added to database ") (ascii " was not created in database ")
    picoMsg

def deleteCollection (X : Externals) (U : Unset) (picoMsg : PicoMessage) : MsgPtr :=
  collectionReply X U (ascii " was deleted from database ")
    (ascii " was not deleted from database ") picoMsg

def deleteRecords (X : Externals) (picoMsg : PicoMessage) : MsgPtr :=
  let result := ascii "one message was deleted from database in unknown(todo)" ++
    ascii " seperate records"
  some (reply X (ascii "SUCCESS") result picoMsg)

def updateRecords (X : Externals) (picoMsg : PicoMessage) : MsgPtr :=
  some (reply X (ascii "SUCCESS") (ascii "records were updated") picoMsg)

/-- `getOneMessage`: `msg` is never given a message. -/
def getOneMessage (U : Unset) (requestMessage : PicoMessage) : Except Crash MsgPtr := do
  let _ ← U.firstrecord.mapError Crash.fault
  if requestMessage.messageId = [] then .error (.fault (.assertion .messageIdNotEmpty))
  else
    let msg : MsgPtr := none
    let _ ← deref msg
    .ok msg

/-- `build_message_from_string`: `pico_message(value, true, messageId)`. -/
def buildMessageFromString (X : Externals) (value messageId : Bytes) : Except Crash MsgPtr :=
  let msg : PicoMessage := { messageId, json_form_of_message := value }
  match X.parse value with
  | none => .error (.fault (.assertion .parsingSuccessful))
  | some _ => .ok (some (if value = [] then msg else msg.setHashCode X))

/-! ## `processRequest` -/

/-- The `if` chain: `retMsg` and `messageWasProcessed` behind it. -/
def dispatch (X : Externals) (U : Unset) (picoMessage : PicoMessage) :
    Except Crash (MsgPtr × Bool) :=
  if picoMessage.command = insertCommand then .ok (none, true)
  else if picoMessage.command = deleteCommand then .ok (deleteRecords X picoMessage, true)
  else if picoMessage.command = updateCommand then .ok (updateRecords X picoMessage, true)
  else if picoMessage.command = findCommand then .ok (none, true)
  else if picoMessage.command = addUserToDBCommand then .ok (none, true)
  else if picoMessage.command = deleteUserToDBCommand then .ok (none, true)
  else if picoMessage.command = getCommand then
    (getOneMessage U picoMessage).map fun retMsg => (retMsg, true)
  else if picoMessage.command = deleteCollectionCommand then
    .ok (deleteCollection X U picoMessage, true)
  else if picoMessage.command = createCollectionCommand then
    .ok (createCollection X U picoMessage, true)
  else .ok (none, false)

/-- `processRequest`. -/
def processRequest (X : Externals) (U : Unset) (picoMessage : PicoMessage) :
    Except Crash MsgPtr := do
  let processed ← dispatch X U picoMessage
  -- the `retMsg` built for an unknown command ends with its block
  let str := ascii "request_processr: message wasn't processed"
  let _ ← (if processed.2 then .ok none else buildMessageFromString X str picoMessage.messageId)
  let _ ← deref processed.1
  .ok processed.1

/-! ## Which requests are answered -/

/-- The key a reply is to have; only the functions on collections have a result
that can be bad. -/
def properKey (U : Unset) (picoMessage : PicoMessage) : Bytes :=
  if (picoMessage.command = createCollectionCommand ∨
      picoMessage.command = deleteCollectionCommand) ∧ U.resultOfOperation = false
  then ascii "FAILURE" else ascii "SUCCESS"

/-- The commands whose reply is to tell success from failure. -/
def tellsResult (picoMessage : PicoMessage) : Prop :=
  picoMessage.command = deleteCommand ∨ picoMessage.command = updateCommand ∨
    picoMessage.command = createCollectionCommand ∨ picoMessage.command = deleteCollectionCommand

instance (picoMessage : PicoMessage) : Decidable (tellsResult picoMessage) :=
  inferInstanceAs (Decidable (_ ∨ _ ∨ _ ∨ _))

/-- The request is answered: the call comes back with a reply that has its id,
and a proper key where there is a result to tell. -/
def Answered (X : Externals) (U : Unset) (picoMessage : PicoMessage) : Prop :=
  ∃ msg, processRequest X U picoMessage = .ok (some msg) ∧ msg.messageId = picoMessage.messageId ∧
    (tellsResult picoMessage → msg.key = properKey U picoMessage)

section

variable {X : Externals} {U : Unset} {picoMessage msg : PicoMessage}

@[simp] theorem reply_messageId (key result : Bytes) :
    (reply X key result picoMessage).messageId = picoMessage.messageId := rfl

@[simp] theorem reply_key (key result : Bytes) : (reply X key result picoMessage).key = key := rfl

/-- `getOneMessage` never comes back. -/
theorem getOneMessage_ne_ok (U : Unset) (picoMessage : PicoMessage) (r : MsgPtr) :
    getOneMessage U picoMessage ≠ .ok r := by
  intro h
  obtain ⟨_, -, h⟩ := bind_eq_ok h
  split at h
  · cases h
  · cases h

/-- The four commands for which the dispatch makes a reply. -/
theorem dispatch_eq_some_iff {messageWasProcessed : Bool} :
    dispatch X U picoMessage = .ok (some msg, messageWasProcessed) ↔
      ((picoMessage.command = deleteCommand ∧ deleteRecords X picoMessage = some msg) ∨
          (picoMessage.command = updateCommand ∧ updateRecords X picoMessage = some msg) ∨
          (picoMessage.command = deleteCollectionCommand ∧
            deleteCollection X U picoMessage = some msg) ∨
          (picoMessage.command = createCollectionCommand ∧
            createCollection X U picoMessage = some msg)) ∧ messageWasProcessed = true := by
  have hget : ∀ r : MsgPtr × Bool,
      (getOneMessage U picoMessage).map (fun retMsg => (retMsg, true)) ≠ .ok r := by
    intro r h
    obtain ⟨msg, hmsg, -⟩ := map_eq_ok h
    exact getOneMessage_ne_ok U picoMessage msg hmsg
  unfold dispatch
  -- one goal for each command, and one for all the others
  repeat' split
  all_goals simp +decide [*]

/-- A request comes back with a reply exactly when the dispatch has made one. -/
theorem processRequest_eq_ok_iff :
    processRequest X U picoMessage = .ok (some msg) ↔
      dispatch X U picoMessage = .ok (some msg, true) := by
  constructor
  · intro h
    obtain ⟨⟨retMsg, messageWasProcessed⟩, hdispatch, h⟩ := bind_eq_ok h
    obtain ⟨_, -, h⟩ := bind_eq_ok h
    obtain ⟨_, -, h⟩ := bind_eq_ok h
    cases h
    rw [hdispatch, (dispatch_eq_some_iff.mp hdispatch).2]
  · intro h
    simp only [processRequest, h]
    rfl

/-- Whatever comes back has the id of the request. -/
theorem messageId_of_processRequest (h : processRequest X U picoMessage = .ok (some msg)) :
    msg.messageId = picoMessage.messageId := by
  rcases (dispatch_eq_some_iff.mp (processRequest_eq_ok_iff.mp h)).1 with
    ⟨-, hmsg⟩ | ⟨-, hmsg⟩ | ⟨-, hmsg⟩ | ⟨-, hmsg⟩
  all_goals
    cases hmsg
    rfl

theorem answered_of_dispatch (h : dispatch X U picoMessage = .ok (some msg, true))
    (hkey : msg.key = properKey U picoMessage) : Answered X U picoMessage := by
  have hmsg := processRequest_eq_ok_iff.mpr h
  exact ⟨msg, hmsg, messageId_of_processRequest hmsg, fun _ => hkey⟩

/-- A success is not told: the key is empty. -/
theorem failed_of_key {done notDone : Bytes}
    (h : collectionReply X U done notDone picoMessage = some msg)
    (hkey : msg.key = properKey U picoMessage) : U.resultOfOperation = false := by
  cases hresult : U.resultOfOperation with
  | false => rfl
  | true =>
    cases h
    simp +decide [properKey, hresult] at hkey

/-- **Answers.** A request is answered as it should be exactly when it is a
delete, an update, or a creation or deletion of a collection that fails. -/
theorem each_request_answered_iff (X : Externals) (U : Unset) (picoMessage : PicoMessage) :
    Answered X U picoMessage ↔
      picoMessage.command = deleteCommand ∨ picoMessage.command = updateCommand ∨
        ((picoMessage.command = deleteCollectionCommand ∨
          picoMessage.command = createCollectionCommand) ∧ U.resultOfOperation = false) := by
  constructor
  · intro hanswered
    rcases hanswered with ⟨msg, hmsg, -, hkey⟩
    rcases (dispatch_eq_some_iff.mp (processRequest_eq_ok_iff.mp hmsg)).1 with
      ⟨hcommand, -⟩ | ⟨hcommand, -⟩ | ⟨hcommand, hreply⟩ | ⟨hcommand, hreply⟩
    · exact Or.inl hcommand
    · exact Or.inr (Or.inl hcommand)
    · have hproper := hkey (by simp [tellsResult, hcommand])
      exact Or.inr (Or.inr ⟨Or.inl hcommand, failed_of_key hreply hproper⟩)
    · have hproper := hkey (by simp [tellsResult, hcommand])
      exact Or.inr (Or.inr ⟨Or.inr hcommand, failed_of_key hreply hproper⟩)
  · intro hcommand
    rcases hcommand with hcommand | hcommand | ⟨hcommand | hcommand, hfailed⟩
    · exact answered_of_dispatch (dispatch_eq_some_iff.mpr ⟨Or.inl ⟨hcommand, rfl⟩, rfl⟩)
        (by simp +decide [properKey, hcommand])
    · exact answered_of_dispatch
        (dispatch_eq_some_iff.mpr ⟨Or.inr (Or.inl ⟨hcommand, rfl⟩), rfl⟩)
        (by simp +decide [properKey, hcommand])
    · exact answered_of_dispatch
        (dispatch_eq_some_iff.mpr ⟨Or.inr (Or.inr (Or.inl ⟨hcommand, rfl⟩)), rfl⟩)
        (by simp [properKey, hcommand, hfailed])
    · exact answered_of_dispatch
        (dispatch_eq_some_iff.mpr ⟨Or.inr (Or.inr (Or.inr ⟨hcommand, rfl⟩)), rfl⟩)
        (by simp [properKey, hcommand, hfailed])

/-- An insert dereferences the null reply, and the key of a creation that
succeeds is empty. -/
theorem requests_not_answered :
    let X : Externals := { parse := fun _ => none, stdHash := fun _ => 0 }
    let U : Unset := { resultOfOperation := true, firstrecord := .ok [] }
    let insert : PicoMessage := { command := insertCommand, messageId := ascii "1" }
    let create : PicoMessage := { command := createCollectionCommand, messageId := ascii "1" }
    processRequest X U insert = .error .nullPointer ∧ ¬ Answered X U insert ∧
      (processRequest X U create).map (·.map (·.key)) = .ok (some []) ∧
      ¬ Answered X U create := by
  intro X U insert create
  have hinsert : processRequest X U insert = .error .nullPointer := by decide
  have hcreate : (processRequest X U create).map (·.map (·.key)) = .ok (some []) := by decide
  refine ⟨hinsert, ?_, hcreate, ?_⟩
  · intro hanswered
    rcases hanswered with ⟨msg, hmsg, -⟩
    rw [hinsert] at hmsg
    cases hmsg
  · intro hanswered
    rcases hanswered with ⟨msg, hmsg, -, hkey⟩
    rw [hmsg] at hcreate
    injection hcreate with hcreate
    injection hcreate with hempty
    have hproper : msg.key = ascii "SUCCESS" := hkey (by decide)
    exact absurd (hproper.symm.trans hempty) (by decide)

end

end RequestProcessor

end PicoDB
