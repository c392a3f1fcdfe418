import PicoDB.JsonNumbers

/-!
# PicoDB.JsonValues — what a `Json::Value` can hold

The numbers of a `Json::Value` have 64 bits, and an object is a map from C
strings, with its keys in order. `parse_valid` says that the reader builds
nothing else, whatever the document is; in particular a key that is repeated in
the document is one member of the object. The strings of a `Json::Value` may
hold NULs, those that the reader makes do not.
-/

namespace PicoDB

namespace Json

/-- What `Json::Value` can hold, at every depth, with strings of one kind. -/
inductive Value.Valid (P : Bytes → Prop) : Value → Prop where
  | null : Valid P .nullValue
  | int {i : Int} (hlo : -2 ^ 63 ≤ i) (hhi : i < 2 ^ 63) : Valid P (.intValue i)
  | uint {n : Nat} (h : n < 2 ^ 64) : Valid P (.uintValue n)
  | real (bits : UInt64) : Valid P (.realValue bits)
  | string {s : Bytes} (h : P s) : Valid P (.stringValue s)
  | boolean (b : Bool) : Valid P (.booleanValue b)
  | array {xs : List Value} (h : ∀ x ∈ xs, Valid P x) : Valid P (.arrayValue xs)
  | object {ms : List (Bytes × Value)} (hkeys : (ms.map Prod.fst).Pairwise (· < ·))
      (hzero : ∀ m ∈ ms, (0 : Byte) ∉ m.1) (h : ∀ m ∈ ms, Valid P m.2) :
      Valid P (.objectValue ms)

namespace Reader

open Value (Valid)

variable {scanDouble : Bytes → Option UInt64} {P : Bytes → Prop}

/-! ## Numbers -/

/-- The digits that `decodeNumber` takes stay below `2 ^ 64`: what the threshold lets
pass is computed modulo `2 ^ 64`. -/
theorem decodeDigits_lt {threshold lastDigitThreshold v w : Nat} {ds : Bytes} (hv : v < 2 ^ 64)
    (h : decodeDigits threshold lastDigitThreshold v ds = .integer w) : w < 2 ^ 64 := by
  induction ds generalizing v with
  | nil =>
    cases h
    exact hv
  | cons c ds ih =>
    rw [decodeDigits] at h
    split at h
    · dsimp only at h
      split at h
      · cases h
      · exact ih (Nat.mod_lt _ (by norm_num)) h
    · cases h

/-- An `Int` or a `UInt` is made of it, as it fits. -/
theorem valid_integer (isNegative : Bool) {n : Nat} (h : n < 2 ^ 64) :
    Valid P (integer isNegative n) := by
  unfold integer
  split
  · exact .int (by have := Int.le_bmod (x := -(n : Int)) (m := 2 ^ 64) (by norm_num); omega)
      (by have := Int.bmod_lt (x := -(n : Int)) (m := 2 ^ 64) (by norm_num); omega)
  · split
    · exact .int (by omega) (by omega)
    · exact .uint h

theorem valid_decodeDouble {t : Token} {x : Value} (h : decodeDouble scanDouble t = .ok x) :
    Valid P x := by
  unfold decodeDouble at h
  split at h
  · cases h
  · cases h
    exact .real _

/-- Whatever stands in a number's token, the value has 64 bits. -/
theorem valid_decodeNumber {t : Token} {x : Value} (h : decodeNumber scanDouble t = .ok x) :
    Valid P x := by
  cases hdouble : isDouble t.text with
  | true =>
    rw [decodeNumber, if_pos hdouble] at h
    exact valid_decodeDouble h
  | false =>
    rw [decodeNumber_eq hdouble] at h
    dsimp only at h
    split at h
    · cases h
    · exact valid_decodeDouble h
    · rename_i value hvalue
      cases h
      exact valid_integer _ (decodeDigits_lt (by norm_num) hvalue)

/-! ## Members -/

/-- A member is the one that was put, or was there before. -/
theorem mem_putMember {name : Bytes} {x : Value} {ms : List (Bytes × Value)} {m : Bytes × Value}
    (h : m ∈ putMember name x ms) : m = (cString name, x) ∨ m ∈ ms := by
  induction ms with
  | nil => exact Or.inl (List.mem_singleton.mp h)
  | cons m' ms ih =>
    rw [putMember] at h
    split at h
    · exact (List.mem_cons.mp h).imp_right (List.mem_cons_of_mem m')
    · split at h
      · exact List.mem_cons.mp h
      · rcases List.mem_cons.mp h with rfl | h
        · exact Or.inr List.mem_cons_self
        · exact (ih h).imp_right (List.mem_cons_of_mem m')

/-- A member finds its place among the others. -/
theorem keys_putMember (name : Bytes) (x : Value) {ms : List (Bytes × Value)}
    (h : (ms.map Prod.fst).Pairwise (· < ·)) :
    ((putMember name x ms).map Prod.fst).Pairwise (· < ·) := by
  induction ms with
  | nil => exact List.pairwise_singleton _ _
  | cons m ms ih =>
    rw [List.map_cons, List.pairwise_cons] at h
    rw [putMember]
    split
    · rename_i heq
      rw [List.map_cons, List.pairwise_cons]
      exact ⟨heq ▸ h.1, h.2⟩
    · rename_i hne
      split
      · rename_i hlt
        rw [List.map_cons, List.map_cons, List.pairwise_cons, List.pairwise_cons]
        refine ⟨List.forall_mem_cons.mpr ⟨hlt, fun k hk => List.lt_trans hlt (h.1 k hk)⟩, h⟩
      · rename_i hnot
        rw [List.map_cons, List.pairwise_cons]
        refine ⟨fun k hk => ?_, ih h.2⟩
        obtain ⟨m', hm', rfl⟩ := List.mem_map.mp hk
        rcases mem_putMember hm' with rfl | hm'
        · exact (List.le_iff_lt_or_eq.mp (List.not_lt.mp hnot)).resolve_right
            fun heq => hne heq.symm
        · exact h.1 _ (List.mem_map_of_mem hm')

/-- Putting a member keeps an object well formed: its key is cut at the first NUL and
replaces an equal one. -/
theorem valid_putMember {name : Bytes} {x : Value} {ms : List (Bytes × Value)}
    (hms : Valid P (.objectValue ms)) (hx : Valid P x) :
    Valid P (.objectValue (putMember name x ms)) := by
  cases hms with
  | object hkeys hzero h =>
    refine .object (keys_putMember name x hkeys) (fun m hm => ?_) (fun m hm => ?_)
    · rcases mem_putMember hm with rfl | hm
      · exact zero_notMem_cString name
      · exact hzero m hm
    · rcases mem_putMember hm with rfl | hm
      · exact hx
      · exact h m hm

/-! ## Documents -/

/-- What has been read of a value so far. -/
def Phase.Valid : Phase → Prop
  | .members _ ms => Value.Valid (fun s => (0 : Byte) ∉ s) (.objectValue ms)
  | .elements xs => Value.Valid (fun s => (0 : Byte) ∉ s) (.arrayValue xs)
  | _ => True

/-- Every derivation ends with a well-formed value, the strings of which were cut at their
first NUL. -/
theorem Accepts.valid {p : Phase} {s rest : Location} {x : Value}
    (h : Accepts scanDouble p s x rest) (hp : p.Valid) : Valid (fun s => (0 : Byte) ∉ s) x := by
  induction h with
  | null => exact .null
  | true => exact .boolean _
  | false => exact .boolean _
  | number _ hx => exact valid_decodeNumber hx
  | string => exact .string (zero_notMem_cString _)
  | object _ _ ih => exact ih (.object (by simp) (by simp) (by simp))
  | array _ _ ih => exact ih trivial
  | noMember => exact hp
  | lastMember _ _ _ _ _ _ ih => exact valid_putMember hp (ih trivial)
  | member _ _ _ _ _ _ _ ihx ihy => exact ihy (valid_putMember hp (ihx trivial))
  | noElement => exact .array (by simp)
  | someElement _ _ ih => exact ih (.array (by simp))
  | lastElement _ _ ih =>
    cases hp with
    | array h => exact .array (List.forall_mem_append.mpr ⟨h, by simpa using ih trivial⟩)
  | element _ _ _ ihx ihy =>
    cases hp with
    | array h => exact ihy (.array (List.forall_mem_append.mpr ⟨h, by simpa using ihx trivial⟩))

/-- **What is accepted is well formed**, at every depth, and no string in it holds a
NUL. -/
theorem parse_valid {document : Bytes} {x : Value} (h : (parse scanDouble document).1 = some x) :
    Valid (fun s => (0 : Byte) ∉ s) x := by
  obtain ⟨rest, haccepts⟩ := parse_eq_some_iff.mp h
  exact haccepts.valid trivial

/-- Two members of one name, an array, and a string with a NUL in it. -/
theorem parse_valid_repeated :
    let document := ascii "\x7b\"b\":1,\"a\":[-2,\"c\\u0000d\"],\"b\":3\x7d"
    ∃ x, Valid (fun s => (0 : Byte) ∉ s) x ∧ (parse (fun _ => none) document).1 = some x := by
  intro document
  obtain ⟨x, hx⟩ := Option.isSome_iff_exists.mp (by decide +kernel :
    (parse (fun _ => none) document).1.isSome = true)
  exact ⟨x, parse_valid hx, hx⟩

end Reader

end Json

end PicoDB
