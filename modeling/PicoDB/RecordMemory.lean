import PicoDB.Framing
import PicoDB.Lib.Lts

/-!
# PicoDB.RecordMemory — what a record reads of its memory

`data_` was an array once and is a pointer now. The length of the buffer is in
`dataSize`; `getDataForWrite` takes the buffer for a C string and keeps what it
has found, `getDataAsString`, `toJson` and the copy constructor take
`sizeof(data_)` for its length, which is the size of a pointer.

* `each_write_sends_own_bytes_iff`: when `getDataForWrite` returns the bytes of
  the record, and looks at no others.
* `records_are_values_iff`: when the views of a record agree, and its copies
  with it.
-/

namespace PicoDB

open Lts

/-! ## The history of a record -/

namespace PicoRecord

/-- What is done to a record between its construction and its end. -/
inductive Use where
  | getDataForRead (buffer : Bytes)
  | getDataForWrite (beyond : Bytes)
deriving DecidableEq, Repr

/-- Histories: a record is built from a non-empty string, or is filled first.
A call of `getDataForWrite` whose assertion fails ends the process. -/
def history : System PicoRecord Use where
  Init r := (∃ s, s ≠ [] ∧ r = ofString s) ∨ ∃ buffer, r = getDataForRead buffer (ofString [])
  guard
    | .getDataForRead _, _ => True
    | .getDataForWrite beyond, r => (r.getDataForWrite beyond).isOk = true
  update
    | .getDataForRead buffer, r => r.getDataForRead buffer
    | .getDataForWrite beyond, r =>
      match r.getDataForWrite beyond with
      | .ok (_, r') => r'
      | .error _ => r

instance (l : Use) (r : PicoRecord) : Decidable (history.guard l r) :=
  match l with
  | .getDataForRead _ => .isTrue trivial
  | .getDataForWrite beyond =>
    inferInstanceAs (Decidable ((r.getDataForWrite beyond).isOk = true))

/-- The positions of `data_` a call of `getDataForWrite` looks at: the C string
and its terminator, or none when it has a string already. -/
def touched (beyond : Bytes) (r : PicoRecord) : List Nat :=
  if r.dataString = [] then List.range ((cString (r.data_ ++ beyond)).length + 1) else []

/-- A call of `getDataForWrite` as it should be. -/
structure SendsOwnBytes (beyond : Bytes) (r : PicoRecord) : Prop where
  returns : ∃ r', r.getDataForWrite beyond = .ok (r.data_, r')
  inside : ∀ i ∈ r.touched beyond, i < r.getSize

/-- Then the body of the frame is the record. -/
theorem SendsOwnBytes.body {M : Memory} {r : PicoRecord} (h : SendsOwnBytes M.beyond r)
    (dataSizeAsStr : Nat → Bytes) :
    ∃ f, writeOneBuffer dataSizeAsStr M r = .ok f ∧ f.body = r.data_ := by
  rcases h.returns with ⟨r', hr'⟩
  refine ⟨_, by simp only [writeOneBuffer, hr']; rfl, ?_⟩
  show fromCStr r.data_ M.slack r.data_.length = r.data_
  rw [fromCStr_of_le _ (le_refl _), List.take_length]

/-- What `getDataForWrite` has kept has passed its assertion. -/
def Kept (r : PicoRecord) : Prop := r.dataString = [] ∨ 2 < r.dataString.length

theorem kept_step {l : Use} {r : PicoRecord} (h : Kept r) : Kept (history.update l r) := by
  cases l with
  | getDataForRead buffer => exact h
  | getDataForWrite beyond =>
    simp only [history]
    split
    · rename_i data r' hok
      obtain ⟨-, hlen, rfl⟩ := getDataForWrite_eq_ok hok
      exact Or.inr hlen
    · exact h

theorem kept {r : PicoRecord} (h : Reachable history r) : Kept r := by
  refine reachable_invariant Kept ?_ (fun l r _ h => kept_step h) h
  intro r hinit
  rcases hinit with ⟨s, -, rfl⟩ | ⟨buffer, rfl⟩
  · exact Or.inl rfl
  · exact Or.inl rfl

/-- The first call runs past the buffer, or stops within it. -/
theorem not_sendsOwnBytes_of_fresh {beyond : Bytes} {r : PicoRecord} (h : r.dataString = []) :
    ¬ SendsOwnBytes beyond r := by
  intro hsends
  rcases hsends with ⟨⟨r', hr'⟩, hinside⟩
  have hcString : r.data_ = cString (r.data_ ++ beyond) :=
    (getDataForWrite_eq_ok hr').1.trans (if_pos h)
  -- the terminator is behind the last byte
  have hlast := hinside r.data_.length (by simp [touched, h, ← hcString])
  exact absurd hlast (lt_irrefl _)

/-- A call sends the bytes of the record exactly when it finds them kept. -/
theorem sendsOwnBytes_iff {beyond : Bytes} {r : PicoRecord} (hkept : Kept r) :
    SendsOwnBytes beyond r ↔ r.dataString ≠ [] ∧ r.dataString = r.data_ := by
  constructor
  · intro h
    have hne : r.dataString ≠ [] := fun hnil => not_sendsOwnBytes_of_fresh hnil h
    refine ⟨hne, ?_⟩
    rcases h.returns with ⟨r', hr'⟩
    exact ((getDataForWrite_eq_ok hr').1.trans (if_neg hne)).symm
  · intro hcached
    rcases hcached with ⟨hne, heq⟩
    have hlen : 2 < r.dataString.length := hkept.resolve_left hne
    refine ⟨⟨r, ?_⟩, ?_⟩
    · rw [getDataForWrite, if_neg hne, if_pos hlen]
      exact congrArg (fun data => Except.ok (data, r)) heq
    · simp [touched, hne]

/-- Run lemma: nothing is kept as long as nothing was written, and the first
write goes wrong. -/
theorem first_write {tr : List (PicoRecord × Use)} {r : PicoRecord} (h : Run history tr r) :
    ((∀ p ∈ tr, ∀ beyond, p.2 ≠ .getDataForWrite beyond) ∧ r.dataString = []) ∨
      ∃ p ∈ tr, ∃ beyond, p.2 = .getDataForWrite beyond ∧ ¬ SendsOwnBytes beyond p.1 := by
  induction h with
  | start hs =>
    left
    refine ⟨by simp, ?_⟩
    rcases hs with ⟨s, -, rfl⟩ | ⟨buffer, rfl⟩
    · rfl
    · rfl
  | @next tr r l _ _ ih =>
    rcases ih with ⟨htr, hfresh⟩ | ⟨p, hp, hwrong⟩
    · cases l with
      | getDataForRead buffer =>
        left
        refine ⟨?_, hfresh⟩
        refine List.forall_mem_append.mpr ⟨htr, List.forall_mem_singleton.mpr ?_⟩
        intro beyond h
        cases h
      | getDataForWrite beyond =>
        exact Or.inr ⟨(r, .getDataForWrite beyond), by simp, beyond, rfl,
          not_sendsOwnBytes_of_fresh hfresh⟩
    · exact Or.inr ⟨p, List.mem_append_left _ hp, hwrong⟩

/-- **Writes.** At the end of every history a call of `getDataForWrite` returns
the bytes of the record and looks at no others exactly when an earlier call has
kept just these bytes. So all calls of a history do exactly when there are
none. -/
theorem each_write_sends_own_bytes_iff {tr : List (PicoRecord × Use)} {r : PicoRecord}
    (h : Run history tr r) :
    (∀ beyond, SendsOwnBytes beyond r ↔ r.dataString ≠ [] ∧ r.dataString = r.data_) ∧
      ((∀ p ∈ tr, ∀ beyond, p.2 = .getDataForWrite beyond → SendsOwnBytes beyond p.1) ↔
        ∀ p ∈ tr, ∀ beyond, p.2 ≠ .getDataForWrite beyond) := by
  refine ⟨fun beyond => sendsOwnBytes_iff (kept ⟨tr, h⟩), ?_, ?_⟩
  · intro hall
    rcases first_write h with ⟨hnone, -⟩ | ⟨p, hp, beyond, hwrite, hwrong⟩
    · exact hnone
    · exact absurd (hall p hp beyond hwrite) hwrong
  · exact fun hnone p hp beyond hwrite => absurd hwrite (hnone p hp beyond)

theorem each_write_sends_own_bytes_twice :
    let ls : List Use := [.getDataForWrite []]
    (∀ beyond, SendsOwnBytes beyond (after history ls (ofString (ascii "abc"))) ↔
        (after history ls (ofString (ascii "abc"))).dataString ≠ [] ∧
          (after history ls (ofString (ascii "abc"))).dataString =
            (after history ls (ofString (ascii "abc"))).data_) ∧
      ((∀ p ∈ trace history ls (ofString (ascii "abc")), ∀ beyond,
          p.2 = .getDataForWrite beyond → SendsOwnBytes beyond p.1) ↔
        ∀ p ∈ trace history ls (ofString (ascii "abc")), ∀ beyond,
          p.2 ≠ .getDataForWrite beyond) := by
  intro ls
  exact each_write_sends_own_bytes_iff
    (run_of_fires (Or.inl ⟨ascii "abc", by decide, rfl⟩) (by decide))

/-- The first write of `abc` looks at a fourth position; after a refill with
`xyz` a write still returns `abc`. -/
theorem stale_and_overread :
    let r := ofString (ascii "abc")
    let r' := after history [.getDataForWrite [], .getDataForRead (ascii "xyz")] r
    Run history (trace history [.getDataForWrite [], .getDataForRead (ascii "xyz")] r) r' ∧
      (3 ∈ r.touched [] ∧ r.getSize = 3 ∧ ¬ SendsOwnBytes [] r) ∧
      r'.data_ = ascii "xyz" ∧ (r'.getDataForWrite []).map Prod.fst = .ok (ascii "abc") ∧
      ¬ SendsOwnBytes [] r' := by
  intro r r'
  have hrun : Run history (trace history [.getDataForWrite [], .getDataForRead (ascii "xyz")] r)
      r' := run_of_fires (Or.inl ⟨ascii "abc", by decide, rfl⟩) (by decide)
  refine ⟨hrun, ⟨by decide, by decide, not_sendsOwnBytes_of_fresh rfl⟩, by decide, by decide, ?_⟩
  rw [sendsOwnBytes_iff (kept ⟨_, hrun⟩)]
  decide

end PicoRecord

/-! ## The views and the copies of a record -/

/-- `sizeof(data_)`, the size of a pointer on a 64-bit machine. -/
def sizeofData : Nat := 8

/-- A block of the heap, and what is behind it. -/
structure Block where
  bytes : Bytes
  behind : Nat → Byte

namespace Block

/-- The `n` bytes from the start of the block on. -/
def read (n : Nat) (b : Block) : Bytes := (b.bytes ++ (List.range n).map b.behind).take n

/-- `src` is copied to the start of the block. -/
def write (src : Bytes) (b : Block) : Block := { b with bytes := src ++ b.bytes.drop src.length }

@[simp] theorem length_read (n : Nat) (b : Block) : (b.read n).length = n := by
  simp [read]

theorem read_of_le {n : Nat} {b : Block} (h : n ≤ b.bytes.length) : b.read n = b.bytes.take n :=
  List.take_append_of_le_length h

theorem read_write {src : Bytes} {b : Block} {n : Nat} (h : n ≤ src.length) :
    (b.write src).read n = src.take n := by
  have hlen : n ≤ (b.write src).bytes.length := by
    rw [write, List.length_append]
    omega
  rw [read_of_le hlen, write, List.take_append_of_le_length h]

end Block

/-- A `pico_record` with the block its `data_` points to. -/
structure PlacedRecord where
  data_ : Block
  dataSize : Nat
  offset_of_record : Int := -1

namespace PlacedRecord

/-- `pico_record(string json_form_of_message)`. -/
def ofString (behind : Nat → Byte) (json_form_of_message : Bytes) : PlacedRecord where
  data_ := { bytes := json_form_of_message, behind }
  dataSize := json_form_of_message.length

/-- `pico_record(const pico_record& record)`: `data_` is not set before it is
written through, and `landing` is the block it happens to point to. -/
def copy (landing : Block) (record : PlacedRecord) : PlacedRecord where
  data_ := landing.write (record.data_.read sizeofData)
  dataSize := record.dataSize
  offset_of_record := record.offset_of_record

/-- `toString`. -/
def toString (r : PlacedRecord) : Except Fault Bytes :=
  let str := r.data_.read r.dataSize
  if str = [] then .error (.assertion .strNotEmpty) else .ok str

/-- `getDataAsString`. -/
def getDataAsString (r : PlacedRecord) : Bytes := r.data_.read sizeofData

/-- `toJson`. -/
def toJson (r : PlacedRecord) : Bytes :=
  ascii "\x7b " ++ ascii "data : " ++ r.data_.read sizeofData ++ ascii " \x7d"

theorem read_ofString (behind : Nat → Byte) (s : Bytes) :
    (ofString behind s).data_.read s.length = s :=
  (Block.read_of_le (b := (ofString behind s).data_) (le_refl _)).trans List.take_length

/-- `toString` reads the buffer only, and is what it is without the block. -/
theorem toString_ofString (behind : Nat → Byte) (s : Bytes) :
    (ofString behind s).toString = (PicoRecord.ofString s).toString := by
  have hread : (ofString behind s).data_.read (ofString behind s).dataSize = s :=
    read_ofString behind s
  simp only [PlacedRecord.toString, hread]
  cases s with
  | nil => rfl
  | cons b s => rfl

/-- The three views of a record are `s`, and they stay within its buffer. -/
structure ViewsAgree (s : Bytes) (r : PlacedRecord) : Prop where
  toString : r.toString = .ok s
  getDataAsString : r.getDataAsString = s
  toJson : ∃ text, r.toJson = ascii "\x7b data : " ++ text ++ ascii " \x7d" ∧ s <:+: text
  inside : r.dataSize ≤ r.data_.bytes.length ∧ sizeofData ≤ r.data_.bytes.length

/-- A copy is like the record, and it is made within the two buffers. -/
structure CopyAgrees (landing : Block) (r : PlacedRecord) : Prop where
  bytes : (r.copy landing).data_.read r.dataSize = r.data_.read r.dataSize
  dataSize : (r.copy landing).dataSize = r.dataSize
  offset_of_record : (r.copy landing).offset_of_record = r.offset_of_record
  inside : sizeofData ≤ r.data_.bytes.length ∧ sizeofData ≤ landing.bytes.length

/-- The views of a record agree on `s`, and so do those of its copies, each made
from the one before it; `none` is a copy through a pointer to nowhere. -/
def IsValue (s : Bytes) : List (Option Block) → PlacedRecord → Prop
  | [], r => ViewsAgree s r
  | landing :: landings, r =>
    ViewsAgree s r ∧ ∃ b, landing = some b ∧ CopyAgrees b r ∧ IsValue s landings (r.copy b)

/-- The record is as long as a pointer, and holds `s`. -/
structure Fits (s : Bytes) (r : PlacedRecord) : Prop where
  length : s.length = sizeofData
  dataSize : r.dataSize = sizeofData
  room : sizeofData ≤ r.data_.bytes.length
  bytes : r.data_.read sizeofData = s

theorem Fits.ne_nil {s : Bytes} {r : PlacedRecord} (h : Fits s r) : s ≠ [] := by
  rintro rfl
  have hlen := h.length
  cases hlen

theorem Fits.viewsAgree {s : Bytes} {r : PlacedRecord} (h : Fits s r) : ViewsAgree s r where
  toString := by simp only [PlacedRecord.toString, h.dataSize, h.bytes, if_neg h.ne_nil]
  getDataAsString := h.bytes
  toJson := ⟨s, by rw [PlacedRecord.toJson, h.bytes]; rfl, List.infix_refl s⟩
  inside := ⟨h.dataSize ▸ h.room, h.room⟩

theorem Fits.read_copy {s : Bytes} {r : PlacedRecord} (h : Fits s r) (b : Block) :
    (r.copy b).data_.read sizeofData = s := by
  rw [copy, h.bytes, Block.read_write (le_of_eq h.length.symm), ← h.length, List.take_length]

/-- A copy holds `s` again. -/
theorem Fits.copy {s : Bytes} {r : PlacedRecord} (h : Fits s r) (b : Block) :
    Fits s (r.copy b) where
  length := h.length
  dataSize := h.dataSize
  room := by
    show sizeofData ≤ (r.data_.read sizeofData ++ b.bytes.drop _).length
    rw [List.length_append, Block.length_read]
    omega
  bytes := h.read_copy b

/-- The copies of a record that fits agree with it exactly when each finds a
block to be made in. -/
theorem Fits.isValue_iff {s : Bytes} {r : PlacedRecord} (h : Fits s r)
    (landings : List (Option Block)) :
    IsValue s landings r ↔
      ∀ landing ∈ landings, ∃ b, landing = some b ∧ sizeofData ≤ b.bytes.length := by
  induction landings generalizing r with
  | nil => simp [IsValue, h.viewsAgree]
  | cons landing landings ih =>
    rw [IsValue, List.forall_mem_cons]
    constructor
    · intro hvalue
      rcases hvalue with ⟨-, b, hb, hcopy, hrest⟩
      exact ⟨⟨b, hb, hcopy.inside.2⟩, (ih (h.copy b)).mp hrest⟩
    · intro hlandings
      rcases hlandings with ⟨⟨b, hb, hroom⟩, hrest⟩
      have hbytes : (r.copy b).data_.read r.dataSize = r.data_.read r.dataSize := by
        rw [h.dataSize, h.read_copy, h.bytes]
      exact ⟨h.viewsAgree, b, hb, ⟨hbytes, rfl, rfl, h.room, hroom⟩, (ih (h.copy b)).mpr hrest⟩

theorem viewsAgree_of_isValue {s : Bytes} {landings : List (Option Block)} {r : PlacedRecord}
    (h : IsValue s landings r) : ViewsAgree s r := by
  cases landings with
  | nil => exact h
  | cons landing landings => exact h.1

/-- **Views.** The views of the record of `s` and of all its copies agree, with
no byte read or written outside a buffer, exactly when `s` is as long as a
pointer and every copy is made through a pointer that happens to lead to room
for it. -/
theorem records_are_values_iff (behind : Nat → Byte) (s : Bytes) (landings : List (Option Block)) :
    IsValue s landings (ofString behind s) ↔
      s.length = sizeofData ∧
        ∀ landing ∈ landings, ∃ b, landing = some b ∧ sizeofData ≤ b.bytes.length := by
  have hfits : s.length = sizeofData → Fits s (ofString behind s) := fun hlen =>
    { length := hlen
      dataSize := hlen
      room := le_of_eq hlen.symm
      bytes := hlen ▸ read_ofString behind s }
  constructor
  · intro h
    have hlen : s.length = sizeofData := by
      have hdata := (viewsAgree_of_isValue h).getDataAsString
      rw [← hdata, getDataAsString, Block.length_read]
    exact ⟨hlen, ((hfits hlen).isValue_iff landings).mp h⟩
  · intro hright
    exact ((hfits hright.1).isValue_iff landings).mpr hright.2

/-- The view of a shorter string runs on behind it, that of a longer one is cut,
and a copy goes through a pointer to nowhere. -/
theorem views_disagree :
    (ofString (fun _ => 0) (ascii "abc")).getDataAsString = ascii "abc" ++ [0, 0, 0, 0, 0] ∧
      (ofString (fun _ => 0) (ascii "abcdefghij")).getDataAsString = ascii "abcdefgh" ∧
      ¬ IsValue (ascii "abc") [] (ofString (fun _ => 0) (ascii "abc")) ∧
      ¬ IsValue (ascii "abcdefghij") [] (ofString (fun _ => 0) (ascii "abcdefghij")) ∧
      ¬ IsValue (ascii "abcdefgh") [none] (ofString (fun _ => 0) (ascii "abcdefgh")) := by
  have hshort : (ofString (fun _ => 0) (ascii "abc")).getDataAsString =
      ascii "abc" ++ [0, 0, 0, 0, 0] := by decide
  have hlong : (ofString (fun _ => 0) (ascii "abcdefghij")).getDataAsString =
      ascii "abcdefgh" := by decide
  refine ⟨hshort, hlong, fun h => ?_, fun h => ?_, fun h => ?_⟩
  · exact absurd (hshort.symm.trans (viewsAgree_of_isValue h).getDataAsString) (by decide)
  · exact absurd (hlong.symm.trans (viewsAgree_of_isValue h).getDataAsString) (by decide)
  · rcases h.2 with ⟨b, hb, -⟩
    cases hb

end PlacedRecord

end PicoDB
