import PicoDB.Lib.Marker
import PicoDB.Utils

/-!
# PicoDB.Record — `pico_record.h`

A record is a heap buffer with its length, an offset in the collection file and
the cached string of `getDataForWrite`. The buffer has no terminator: code that
takes `data_` for a C string runs on into the memory behind it, which is an
argument here (`beyond`).

The one theorem of the file is the meaning of `IsThisRecordASizeInfo`: four
`'#'` in a row anywhere in the buffer, with at least one more byte after them.
-/

namespace PicoDB

/-- `pico_record`; `data_` holds the `dataSize` bytes of the buffer. -/
structure PicoRecord where
  data_ : Bytes
  offset_of_record : Int := -1
  dataString : Bytes := []
deriving DecidableEq, Repr

namespace PicoRecord

/-- `pico_record(string json_form_of_message)`. -/
def ofString (json_form_of_message : Bytes) : PicoRecord := { data_ := json_form_of_message }

/-- `getDataForRead` and the read into the fresh buffer it returns: `buffer` is
what the buffer holds afterwards. The cached string stays. -/
def getDataForRead (buffer : Bytes) (r : PicoRecord) : PicoRecord := { r with data_ := buffer }

/-- `getSize`. -/
def getSize (r : PicoRecord) : Nat := r.data_.length

/-- `toString`: a copy of all `dataSize` bytes. -/
def toString (r : PicoRecord) : Except Fault Bytes :=
  if r.data_ = [] then .error (.assertion .strNotEmpty) else .ok r.data_

/-- `getDataForWrite`: the C string at `data_` the first time, the cached copy
from then on. -/
def getDataForWrite (beyond : Bytes) (r : PicoRecord) : Except Fault (Bytes × PicoRecord) :=
  let dataString := if r.dataString = [] then cString (r.data_ ++ beyond) else r.dataString
  if 2 < dataString.length then .ok (dataString, { r with dataString := dataString })
  else .error (.assertion .dataStringSize)

/-- `IsThisRecordASizeInfo`: the loop over all positions of the buffer. -/
def isThisRecordASizeInfo (record : PicoRecord) : Bool :=
  (List.range record.getSize).any fun i =>
    record.data_[i]? == some hash && decide (i + 4 < record.getSize) &&
      record.data_[i + 1]? == some hash && record.data_[i + 2]? == some hash &&
      record.data_[i + 3]? == some hash

@[simp] theorem ofString_data (s : Bytes) : (ofString s).data_ = s := rfl

@[simp] theorem ofString_getSize (s : Bytes) : (ofString s).getSize = s.length := rfl

theorem toString_ofString {s : Bytes} (h : s ≠ []) : (ofString s).toString = .ok s := by
  simp [toString, h]

/-- What `getDataForWrite` gives when it comes back. -/
theorem getDataForWrite_eq_ok {beyond data : Bytes} {r r' : PicoRecord}
    (h : r.getDataForWrite beyond = .ok (data, r')) :
    data = (if r.dataString = [] then cString (r.data_ ++ beyond) else r.dataString) ∧
      2 < data.length ∧ r' = { r with dataString := data } := by
  unfold getDataForWrite at h
  dsimp only at h
  generalize hdata : (if r.dataString = [] then cString (r.data_ ++ beyond) else r.dataString) =
    found at h
  by_cases hlen : 2 < found.length
  · rw [if_pos hlen] at h
    cases h
    exact ⟨rfl, hlen, rfl⟩
  · rw [if_neg hlen] at h
    cases h

/-- A fresh record without NUL bytes is written from its own bytes on. -/
theorem getDataForWrite_ofString {s beyond dataString : Bytes} {r : PicoRecord}
    (h0 : (0 : Byte) ∉ s)
    (h : (ofString s).getDataForWrite beyond = .ok (dataString, r)) :
    dataString = s ++ cString beyond := by
  calc
    dataString = cString (s ++ beyond) := (getDataForWrite_eq_ok h).1.trans (if_pos rfl)
    _ = s ++ cString beyond := cString_append h0 beyond

/-- `getDataForWrite` comes back on a fresh record of more than two bytes. -/
theorem getDataForWrite_ofString_ok {s : Bytes} (beyond : Bytes) (h0 : (0 : Byte) ∉ s)
    (hlen : 2 < s.length) :
    ∃ r, (ofString s).getDataForWrite beyond = .ok (s ++ cString beyond, r) := by
  have hlong : 2 < (s ++ cString beyond).length := by
    rw [List.length_append]
    omega
  refine ⟨{ ofString s with dataString := s ++ cString beyond }, ?_⟩
  simp only [getDataForWrite, ofString, if_true, cString_append h0, if_pos hlong]

/-- **Meaning of `IsThisRecordASizeInfo`.** Four `'#'` in a row, and not as the
very end of the buffer. -/
theorem isThisRecordASizeInfo_iff (r : PicoRecord) :
    r.isThisRecordASizeInfo = true ↔ List.replicate 4 hash <:+: r.data_.dropLast := by
  have hpos : ∀ i : Nat, (∀ j (hj : j < (List.replicate 4 hash).length),
      r.data_.dropLast[j + i]? = some (List.replicate 4 hash)[j]) ↔
      i + 4 < r.data_.length ∧ ∀ j < 4, r.data_[i + j]? = some hash := by
    intro i
    simp only [List.length_replicate, List.getElem_replicate, List.getElem?_dropLast]
    constructor
    · intro h
      have h3 := h 3 (by omega)
      split at h3
      · refine ⟨by omega, ?_⟩
        intro j hj
        have hj' := h j hj
        rw [if_pos (by omega)] at hj'
        rwa [Nat.add_comm]
      · cases h3
    · rintro ⟨hlt, h⟩ j hj
      rw [if_pos (by omega), Nat.add_comm]
      exact h j hj
  -- the position the loop stops at is where the run starts
  rw [List.infix_iff_getElem?]
  simp only [isThisRecordASizeInfo, getSize, List.any_eq_true, List.mem_range, Bool.and_eq_true,
    beq_iff_eq]
  constructor
  · rintro ⟨i, hi, ⟨⟨⟨h0, hlt⟩, h1⟩, h2⟩, h3⟩
    have hlt' : i + 4 < r.data_.length := of_decide_eq_true hlt
    refine ⟨i, ?_, (hpos i).mpr ⟨hlt', ?_⟩⟩
    · rw [List.length_replicate, List.length_dropLast]
      omega
    · intro j hj
      rcases (by omega : j = 0 ∨ j = 1 ∨ j = 2 ∨ j = 3) with rfl | rfl | rfl | rfl
      · exact h0
      · exact h1
      · exact h2
      · exact h3
  · rintro ⟨i, -, hrun⟩
    rcases (hpos i).mp hrun with ⟨hlt, hat⟩
    exact ⟨i, by omega, ⟨⟨⟨hat 0 (by omega), decide_eq_true hlt⟩, hat 1 (by omega)⟩,
      hat 2 (by omega)⟩, hat 3 (by omega)⟩

/-- A buffer that starts with four `'#'` and goes on is a size info. -/
theorem isThisRecordASizeInfo_of_prefix {text : Bytes} (h : text ≠ []) :
    (ofString (List.replicate 4 hash ++ text)).isThisRecordASizeInfo = true := by
  rw [isThisRecordASizeInfo_iff, ofString_data, List.dropLast_append_of_ne_nil h]
  exact (List.prefix_append _ _).isInfix

end PicoRecord

end PicoDB
