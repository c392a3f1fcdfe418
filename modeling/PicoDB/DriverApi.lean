import PicoDB.Codec
import PicoDB.System

/-!
# PicoDB.DriverApi — the calls of `PonocoDriver`

Every call of the driver builds a message with the six-argument constructor,
queues its record and waits. The record is what the server will read, so the
question is what is parsed from it (`api_carries_iff`): all that was asked for,
except that the two functions on collections send the driver's own collection.
-/

namespace PicoDB

/-- What a `PonocoDriver` puts into its requests, as `setDefaultParameter`
leaves it. -/
structure PonocoDriver where
  database : Bytes := ascii "currencyDB"
  user : Bytes := ascii "currencyUser"
  col : Bytes := ascii "currencyCollection"
deriving DecidableEq, Repr

namespace PonocoDriver

/-! ## Calls -/

variable (d : PonocoDriver)

/-- `new pico_message(key,value,command,database,user,col)`. -/
def message (key value command : Bytes) : FieldArgs :=
  .insert key value command d.database d.user d.col

def insert (key value : Bytes) : FieldArgs := d.message key value (ascii "insert")

def update (key newValue : Bytes) : FieldArgs := d.message key newValue (ascii "update")

def deleteRecord (key : Bytes) : FieldArgs :=
  d.message key (ascii "unimportant") (ascii "delete")

def get (key : Bytes) : FieldArgs := d.message key [] (ascii "get")

/-- `collectionName` is not used. -/
def createCollection (_collectionName : Bytes) : FieldArgs :=
  d.message (ascii "unimportant") (ascii "unimportant") (ascii "createCollection")

/-- `collectionName` is not used. -/
def deleteCollection (_collectionName : Bytes) : FieldArgs :=
  d.message (ascii "unimportant") (ascii "unimportant") (ascii "deleteCollection")

end PonocoDriver

/-- A call of the driver's interface. -/
inductive ApiCall where
  | insert (key value : Bytes)
  | update (key newValue : Bytes)
  | deleteRecord (key : Bytes)
  | get (key : Bytes)
  | createCollection (collectionName : Bytes)
  | deleteCollection (collectionName : Bytes)
deriving DecidableEq, Repr

namespace ApiCall

/-- The arguments of the message a call builds. -/
def fieldArgs (d : PonocoDriver) : ApiCall → FieldArgs
  | insert key value => d.insert key value
  | update key newValue => d.update key newValue
  | deleteRecord key => d.deleteRecord key
  | get key => d.get key
  | createCollection collectionName => d.createCollection collectionName
  | deleteCollection collectionName => d.deleteCollection collectionName

/-! ## What a call asks for -/

/-- The command the server dispatches on. -/
def command : ApiCall → Bytes
  | insert _ _ => ascii "insert"
  | update _ _ => ascii "update"
  | deleteRecord _ => ascii "delete"
  | get _ => ascii "get"
  | createCollection _ => ascii "createCollection"
  | deleteCollection _ => ascii "deleteCollection"

/-- The key, where the call has one. -/
def key : ApiCall → Option Bytes
  | insert key _ => some key
  | update key _ => some key
  | deleteRecord key => some key
  | get key => some key
  | createCollection _ => none
  | deleteCollection _ => none

/-- The value, where the call has one. -/
def value : ApiCall → Option Bytes
  | insert _ value => some value
  | update _ newValue => some newValue
  | _ => none

/-- The collection the call is about. -/
def collection (d : PonocoDriver) : ApiCall → Bytes
  | createCollection collectionName => collectionName
  | deleteCollection collectionName => collectionName
  | _ => d.col

/-- Message `m` says what the call asks for. -/
structure Says (d : PonocoDriver) (call : ApiCall) (m : PicoMessage) : Prop where
  command : m.command = call.command
  db : m.db = d.database
  user : m.user = d.user
  key : ∀ k, call.key = some k → m.key = k
  value : ∀ v, call.value = some v → m.value = v
  collection : m.collection = call.collection d

/-- The record is parsed to a message that says what the call asks for. -/
def Carries (X : Externals) (d : PonocoDriver) (call : ApiCall) (r : PicoRecord) : Prop :=
  ∃ text m, r.toString = .ok text ∧ PicoMessage.ofJson X text = .ok m ∧ Says d call m

/-- No string of the call is cut at a NUL, and the driver's collection is the
one the call is about. -/
structure Fits (d : PonocoDriver) (call : ApiCall) : Prop where
  db : (0 : Byte) ∉ d.database
  user : (0 : Byte) ∉ d.user
  key : ∀ k, call.key = some k → (0 : Byte) ∉ k
  value : ∀ v, call.value = some v → (0 : Byte) ∉ v
  collection : cString d.col = call.collection d

/-! ## What its record carries -/

section

variable (d : PonocoDriver) (call : ApiCall) (draw : Fin 32 → Nat)

theorem assigned_command : ((call.fieldArgs d).assigned draw).command = call.command := by
  cases call <;> rfl

theorem assigned_db : ((call.fieldArgs d).assigned draw).db = d.database := by
  cases call <;> rfl

theorem assigned_user : ((call.fieldArgs d).assigned draw).user = d.user := by
  cases call <;> rfl

/-- The collection sent is the driver's, whatever the call is about. -/
theorem assigned_collection : ((call.fieldArgs d).assigned draw).collection = d.col := by
  cases call <;> rfl

theorem assigned_key {k : Bytes} (h : call.key = some k) :
    ((call.fieldArgs d).assigned draw).key = k := by
  cases call <;> cases h <;> rfl

theorem assigned_value {v : Bytes} (h : call.value = some v) :
    ((call.fieldArgs d).assigned draw).value = v := by
  cases call <;> cases h <;> rfl

theorem cString_command : cString call.command = call.command := by
  cases call <;> rfl

/-- What is parsed says what the call asks for exactly when the call fits. -/
theorem says_iff (X : Externals) :
    Says d call (((call.fieldArgs d).assigned draw).asCStrings.setHashCode X) ↔ Fits d call := by
  have hdb := congrArg cString (assigned_db d call draw)
  have huser := congrArg cString (assigned_user d call draw)
  have hcollection := congrArg cString (assigned_collection d call draw)
  have hcommand := congrArg cString (assigned_command d call draw)
  have hkey : ∀ k, call.key = some k → cString ((call.fieldArgs d).assigned draw).key = cString k :=
    fun k hk => congrArg cString (assigned_key d call draw hk)
  have hvalue : ∀ v, call.value = some v →
      cString ((call.fieldArgs d).assigned draw).value = cString v :=
    fun v hv => congrArg cString (assigned_value d call draw hv)
  constructor
  · intro h
    exact
      { db := cString_eq_self_iff.mp (hdb.symm.trans h.db)
        user := cString_eq_self_iff.mp (huser.symm.trans h.user)
        key := fun k hk => cString_eq_self_iff.mp ((hkey k hk).symm.trans (h.key k hk))
        value := fun v hv => cString_eq_self_iff.mp ((hvalue v hv).symm.trans (h.value v hv))
        collection := hcollection.symm.trans h.collection }
  · intro h
    exact
      { command := hcommand.trans (cString_command call)
        db := hdb.trans (cString_of_zero_notMem h.db)
        user := huser.trans (cString_of_zero_notMem h.user)
        key := fun k hk => (hkey k hk).trans (cString_of_zero_notMem (h.key k hk))
        value := fun v hv => (hvalue v hv).trans (cString_of_zero_notMem (h.value v hv))
        collection := hcollection.trans h.collection }

/-- What the record of a message carries is what is parsed from its text. -/
theorem carries_iff {X : Externals} {m : PicoMessage} (h : PicoMessage.ReadBack X m) :
    Carries X d call (m.complete X).getCompleteMessageInJsonAsOnBuffer ↔
      Says d call (m.asCStrings.setHashCode X) := by
  have hne : m.convertMessageToJson ≠ [] := by
    have hlen := m.lt_length_convertMessageToJson
    intro hnil
    rw [hnil] at hlen
    cases hlen
  have htext : (m.complete X).getCompleteMessageInJsonAsOnBuffer.toString =
      .ok m.convertMessageToJson := by
    rw [PicoMessage.ofString_json, PicoMessage.complete_json, PicoRecord.toString_ofString hne]
  have hread := PicoMessage.ofJson_of_readBack h
  constructor
  · intro hcarries
    rcases hcarries with ⟨text, m', htext', hm', hsays⟩
    have heq : text = m.convertMessageToJson := Except.ok.inj (htext'.symm.trans htext)
    rw [heq] at hm'
    have hm : m' = m.asCStrings.setHashCode X := Except.ok.inj (hm'.symm.trans hread)
    rwa [hm] at hsays
  · intro hsays
    exact ⟨m.convertMessageToJson, m.asCStrings.setHashCode X, htext, hread, hsays⟩

end

/-- **Requests.** The record a call puts on the queue carries the call exactly
when the call fits the driver. -/
theorem api_carries_iff {T : Type} [DecidableEq T] {X : Externals} {d : PonocoDriver}
    {call : ApiCall} {draw : Fin 32 → Nat}
    (h : PicoMessage.ReadBack X ((call.fieldArgs d).assigned draw))
    (t : T) (t1 t2 userTimeOut : Int) (s : State T) :
    ∃ r, ((system X T).update (.issue t (call.fieldArgs d) draw t1 t2 userTimeOut) s).requestQueue =
        s.requestQueue ++ [r] ∧
      (Carries X d call r.val ↔ Fits d call) := by
  refine ⟨⟨s.fresh, ((call.fieldArgs d).build X draw).getCompleteMessageInJsonAsOnBuffer⟩, rfl, ?_⟩
  exact (carries_iff d call h).trans (says_iff d call draw X)

/-- A driver as it is built, and one of its inserts. -/
theorem api_carries_insert :
    let call : ApiCall := .insert (ascii "k") (ascii "v")
    let X := PicoMessage.readerOf ((call.fieldArgs {}).assigned fun _ => 0)
    ∃ r, ((system X Unit).update
        (.issue () (call.fieldArgs {}) (fun _ => 0) 0 0 10) {}).requestQueue = [] ++ [r] ∧
      (Carries X {} call r.val ↔ Fits {} call) :=
  api_carries_iff (PicoMessage.readBack_readerOf _) () 0 0 10 {}

/-- `createCollection("other")` asks the server for another collection. -/
theorem collection_name_dropped :
    let call : ApiCall := .createCollection (ascii "other")
    let X := PicoMessage.readerOf ((call.fieldArgs {}).assigned fun _ => 0)
    ∃ r, ((system X Unit).update
        (.issue () (call.fieldArgs {}) (fun _ => 0) 0 0 10) {}).requestQueue = [r] ∧
      ¬ Carries X {} call r.val := by
  intro call X
  refine ⟨_, rfl, ?_⟩
  intro hcarries
  have hsays := (carries_iff {} call (PicoMessage.readBack_readerOf _)).mp hcarries
  exact absurd hsays.collection (by decide)

end ApiCall

end PicoDB
