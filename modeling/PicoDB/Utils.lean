import Mathlib.Data.List.Basic
import Mathlib.Data.List.TakeWhile
import Mathlib.Tactic.NormNum
import PicoDB.Lib.Decimal

/-!
# PicoDB.Utils — bytes, faults and `pico_utils.h`

Strings are byte strings; a `std::string` carries its length and may hold NUL
bytes, and whatever goes through `c_str()` is cut at the first one (`cString`)
or, when a byte count is given next to the pointer, may run past its end
(`fromCStr`). A call that does not come back normally ends in a `Fault`: an
assertion that fails takes the process down, an exception travels up to the
nearest handler.
-/

namespace PicoDB

abbrev Byte := UInt8
abbrev Bytes := List Byte

/-- The bytes of a source literal. -/
def ascii (s : String) : Bytes := s.toList.map fun c => UInt8.ofNat c.toNat

/-- `'#'`. -/
def hash : Byte := 35

/-- The asserts of the modelled code. -/
inductive Assertion where
  /-- `assert(dataSizeToReadNext>0)` in `readOneBuffer` -/
  | dataSizeToReadNext
  /-- `assert(!str.empty())` in `pico_record::toString` -/
  | strNotEmpty
  /-- `assert(dataString.size()>2)` in `pico_record::getDataForWrite` -/
  | dataStringSize
  /-- `assert(parsingSuccessful)` in the constructors of `pico_message` -/
  | parsingSuccessful
  /-- `JSON_ASSERT( type_ == nullValue || type_ == objectValue )` in `Json::Value` -/
  | jsonObject
  /-- `assert(!reply->toString().empty())` in `processDataFromOtherSide` -/
  | replyNotEmpty
  /-- `assert(shutDownNormally)` in `~pico_session` -/
  | shutDownNormally
  /-- `assert(!requestMessage->messageId.empty())` in `getOneMessage` -/
  | messageIdNotEmpty
deriving DecidableEq, Repr

/-- The exceptions of the modelled code; all derive from `std::exception`. -/
inductive Exn where
  | badLexicalCast
  | badArrayNewLength
  /-- `Json::Value::asString` on a number, an array or an object -/
  | notConvertibleToString
  /-- `boost::asio::write` on a broken connection -/
  | systemError
deriving DecidableEq, Repr

/-- How a call fails to come back. -/
inductive Fault where
  | assertion (a : Assertion)
  | exception (e : Exn)
deriving DecidableEq, Repr

theorem bind_eq_ok {ε α β : Type} {r : Except ε α} {f : α → Except ε β} {b : β}
    (h : (r >>= f) = .ok b) : ∃ a, r = .ok a ∧ f a = .ok b := by
  cases r with
  | error e => cases h
  | ok a => exact ⟨a, rfl, h⟩

theorem map_eq_ok {ε α β : Type} {r : Except ε α} {f : α → β} {b : β} (h : r.map f = .ok b) :
    ∃ a, r = .ok a ∧ f a = b := by
  cases r with
  | error e => cases h
  | ok a => exact ⟨a, rfl, by injection h⟩

/-! ## Pointers and counts -/

/-- A byte string read through `c_str()`: it ends at the first NUL. -/
def cString (s : Bytes) : Bytes := s.takeWhile (· ≠ 0)

/-- `n` bytes from `s.c_str()` on: the string, its terminator, and then
whatever `after` says lies behind it in memory. -/
def fromCStr (s : Bytes) (after : Nat → Byte) (n : Nat) : Bytes :=
  (s ++ 0 :: (List.range n).map after).take n

/-- Conversion of a `long` to `int`. -/
def toInt (x : Int) : Int := x.bmod (2 ^ 32)

@[simp] theorem fromCStr_length (s : Bytes) (after : Nat → Byte) (n : Nat) :
    (fromCStr s after n).length = n := by
  simp only [fromCStr, List.length_take, List.length_append, List.length_cons, List.length_map,
    List.length_range]
  omega

/-- A count within the string reads only the string. -/
theorem fromCStr_of_le {s : Bytes} {n : Nat} (after : Nat → Byte) (h : n ≤ s.length) :
    fromCStr s after n = s.take n :=
  List.take_append_of_le_length h

/-- A count past the string reads its terminator next. -/
theorem fromCStr_of_lt {s : Bytes} {n : Nat} (after : Nat → Byte) (h : s.length < n) :
    ∃ junk, fromCStr s after n = s ++ 0 :: junk := by
  obtain ⟨m, rfl⟩ : ∃ m, n = s.length + (m + 1) := ⟨n - s.length - 1, by omega⟩
  refine ⟨((List.range (s.length + (m + 1))).map after).take m, ?_⟩
  rw [fromCStr, List.take_length_add_append, List.take_succ_cons]

/-- Any bytes may lie behind the terminator. -/
theorem fromCStr_getD (s junk : Bytes) :
    fromCStr s (fun i => junk.getD i 0) (s.length + (junk.length + 1)) = s ++ 0 :: junk := by
  rw [fromCStr, List.take_length_add_append, List.take_succ_cons]
  congr 2
  apply List.ext_getElem
  · simp only [List.length_take, List.length_map, List.length_range]
    omega
  · intro i _ hi
    simp [hi]

theorem cString_of_zero_notMem {s : Bytes} (h : (0 : Byte) ∉ s) : cString s = s := by
  rw [cString, List.takeWhile_eq_self_iff]
  intro b hb
  have hne : b ≠ 0 := fun h0 => h (h0 ▸ hb)
  simpa using hne

theorem zero_notMem_cString (s : Bytes) : (0 : Byte) ∉ cString s := by
  intro h
  simpa using List.mem_takeWhile_imp h

theorem cString_eq_self_iff {s : Bytes} : cString s = s ↔ (0 : Byte) ∉ s := by
  constructor
  · intro h
    rw [← h]
    exact zero_notMem_cString s
  · exact cString_of_zero_notMem

@[simp] theorem cString_cString (s : Bytes) : cString (cString s) = cString s :=
  cString_of_zero_notMem (zero_notMem_cString s)

/-- A string without NUL is what its C string begins with. -/
theorem cString_append {s : Bytes} (h : (0 : Byte) ∉ s) (t : Bytes) :
    cString (s ++ t) = s ++ cString t := by
  have hs : ∀ b ∈ s, decide (b ≠ 0) = true := by
    intro b hb
    simpa using fun h0 : b = 0 => h (h0 ▸ hb)
  exact List.takeWhile_append_of_pos hs

theorem cString_append_zero {s : Bytes} (h : (0 : Byte) ∉ s) (t : Bytes) :
    cString (s ++ 0 :: t) = s := by
  rw [cString_append h]
  simp [cString]

theorem toInt_of_mem {x : Int} (hlo : -2 ^ 31 ≤ x) (hhi : x < 2 ^ 31) : toInt x = x := by
  unfold toInt
  apply Int.bmod_eq_of_le
  · norm_num
    omega
  · norm_num
    omega

theorem toInt_of_lt {n : Nat} (h : n < 2 ^ 31) : toInt n = n := by
  apply toInt_of_mem
  · omega
  · exact_mod_cast h

/-! ## `pico_utils.h` -/

/-- `convertToString` of an unsigned number. -/
def convertToString (n : Nat) : Bytes := Decimal.print n

/-- The digits of a `long` whose magnitude may be at most `limit`. -/
def castDigits (ds : Bytes) (limit : Nat) : Except Fault Nat :=
  match Decimal.read ds with
  | some v => if v ≤ limit then .ok v else .error (.exception .badLexicalCast)
  | none => .error (.exception .badLexicalCast)

/-- `convertToSomething<long>`: `boost::lexical_cast<long>` takes an optional
sign and then digits only, leading zeros included, and throws on anything else
and on what does not fit. -/
def convertToSomething : Bytes → Except Fault Int
  | 45 :: ds => (castDigits ds (2 ^ 63)).map fun v : Nat => -(v : Int)
  | 43 :: ds => (castDigits ds (2 ^ 63 - 1)).map fun v : Nat => (v : Int)
  | ds => (castDigits ds (2 ^ 63 - 1)).map fun v : Nat => (v : Int)

/-- `getProperMessageAboutSize`: four `'#'` and the text of the size. -/
def getProperMessageAboutSize (data properMessageAboutSize : Bytes) : Bytes :=
  properMessageAboutSize ++ List.replicate 4 hash ++ data

/-- The text in `random_number(N)`: `N` draws from a charset of digits. -/
def randomNumber {N : Nat} (draw : Fin N → Nat) : Bytes :=
  (List.finRange N).map fun i =>
    (ascii "09182736455463728190").getD (draw i % 20) 0

/-- `calc_request_id`. -/
def calcRequestId (draw : Fin 32 → Nat) : Bytes := randomNumber draw

theorem castDigits_lt_pow {ds : Bytes} {limit k v : Nat} (h : castDigits ds limit = .ok v)
    (hk : ds.length ≤ k) : v < 10 ^ k := by
  unfold castDigits at h
  split at h
  · rename_i w hw
    split at h
    · cases h
      exact Decimal.read_lt_pow hw hk
    · simp at h
  · simp at h

/-- A text of at most `k` characters spells no number from `10 ^ k` on, in
either direction. -/
theorem convertToSomething_bounds {s : Bytes} {m : Int} {k : Nat}
    (h : convertToSomething s = .ok m) (hk : s.length ≤ k) : -10 ^ k < m ∧ m < 10 ^ k := by
  have hpos : (0 : Int) < 10 ^ k := by positivity
  have hcast : ∀ {ds : Bytes} {limit v : Nat}, castDigits ds limit = .ok v → ds.length ≤ k →
      (v : Int) < 10 ^ k := by
    intro ds limit v hv hlen
    exact_mod_cast castDigits_lt_pow hv hlen
  unfold convertToSomething at h
  split at h
  · rcases map_eq_ok h with ⟨v, hv, rfl⟩
    have hlt := hcast hv (Nat.le_of_succ_le hk)
    omega
  · rcases map_eq_ok h with ⟨v, hv, rfl⟩
    have hlt := hcast hv (Nat.le_of_succ_le hk)
    omega
  · rcases map_eq_ok h with ⟨v, hv, rfl⟩
    have hlt := hcast hv hk
    omega

/-- The text spells the number: a sign, if there is one, and its digits, with
any number of zeros in front of them. -/
inductive Spells : Bytes → Int → Prop where
  | plain (k n : Nat) : Spells (List.replicate k (Decimal.digit 0) ++ convertToString n) n
  | plus (k n : Nat) : Spells (43 :: (List.replicate k (Decimal.digit 0) ++ convertToString n)) n
  | minus (k n : Nat) :
    Spells (45 :: (List.replicate k (Decimal.digit 0) ++ convertToString n)) (-n)

theorem castDigits_eq_ok_iff {ds : Bytes} {limit v : Nat} :
    castDigits ds limit = .ok v ↔
      (∃ k, ds = List.replicate k (Decimal.digit 0) ++ convertToString v) ∧ v ≤ limit := by
  rw [convertToString, ← Decimal.read_eq_some_iff, castDigits]
  cases Decimal.read ds with
  | none => simp
  | some w =>
    dsimp only
    rw [Option.some.injEq]
    constructor
    · intro h
      split at h
      · cases h
        exact ⟨rfl, by assumption⟩
      · cases h
    · rintro ⟨rfl, hle⟩
      rw [if_pos hle]

theorem isDigit_of_mem_zeros {k n : Nat} {b : Byte}
    (h : b ∈ List.replicate k (Decimal.digit 0) ++ convertToString n) :
    Decimal.isDigit b = true := by
  rcases List.mem_append.mp h with h | h
  · rw [List.eq_of_mem_replicate h]
    decide
  · exact Decimal.isDigit_of_mem_print h

/-- **`convertToSomething<long>`** takes the texts that spell a `long`. -/
theorem convertToSomething_eq_ok_iff {s : Bytes} {m : Int} :
    convertToSomething s = .ok m ↔ Spells s m ∧ -2 ^ 63 ≤ m ∧ m < 2 ^ 63 := by
  constructor
  · intro h
    unfold convertToSomething at h
    split at h
    · obtain ⟨v, hv, rfl⟩ := map_eq_ok h
      obtain ⟨⟨k, rfl⟩, hle⟩ := castDigits_eq_ok_iff.mp hv
      exact ⟨.minus k v, by omega, by omega⟩
    · obtain ⟨v, hv, rfl⟩ := map_eq_ok h
      obtain ⟨⟨k, rfl⟩, hle⟩ := castDigits_eq_ok_iff.mp hv
      exact ⟨.plus k v, by omega, by omega⟩
    · obtain ⟨v, hv, rfl⟩ := map_eq_ok h
      obtain ⟨⟨k, rfl⟩, hle⟩ := castDigits_eq_ok_iff.mp hv
      exact ⟨.plain k v, by omega, by omega⟩
  · rintro ⟨hspells, hlo, hhi⟩
    cases hspells with
    | minus k n =>
      have hcast := castDigits_eq_ok_iff.mpr ⟨⟨k, rfl⟩, (by omega : n ≤ 2 ^ 63)⟩
      simp only [convertToSomething, hcast, Except.map]
    | plus k n =>
      have hcast := castDigits_eq_ok_iff.mpr ⟨⟨k, rfl⟩, (by omega : n ≤ 2 ^ 63 - 1)⟩
      simp only [convertToSomething, hcast, Except.map]
    | plain k n =>
      have hcast := castDigits_eq_ok_iff.mpr ⟨⟨k, rfl⟩, (by omega : n ≤ 2 ^ 63 - 1)⟩
      unfold convertToSomething
      split
      · -- the text starts with a digit, not with a sign
        rename_i ds hds
        exact absurd (isDigit_of_mem_zeros (by rw [hds]; exact List.mem_cons_self)) (by decide)
      · rename_i ds hds
        exact absurd (isDigit_of_mem_zeros (by rw [hds]; exact List.mem_cons_self)) (by decide)
      · rw [hcast]
        rfl

/-- A text of at most six characters spells a small number. -/
theorem Spells.bounds {text : Bytes} {m : Int} (h : Spells text m) (hlen : text.length ≤ 6) :
    -2 ^ 63 ≤ m ∧ m < 2 ^ 63 := by
  have hdigits : ∀ k n, (List.replicate k (Decimal.digit 0) ++ convertToString n).length ≤ 6 →
      n < 10 ^ 6 := fun k n hn =>
    Decimal.read_lt_pow (Decimal.read_eq_some_iff.mpr ⟨k, rfl⟩) hn
  cases h with
  | plain k n =>
    have hn := hdigits k n hlen
    omega
  | plus k n =>
    have hn := hdigits k n (Nat.le_of_succ_le hlen)
    omega
  | minus k n =>
    have hn := hdigits k n (Nat.le_of_succ_le hlen)
    omega

/-- Printing a size and casting it back. -/
theorem convertToSomething_convertToString {n : Nat} (h : n < 2 ^ 63) :
    convertToSomething (convertToString n) = .ok (n : Int) :=
  convertToSomething_eq_ok_iff.mpr ⟨.plain 0 n, by omega, by omega⟩

theorem hash_notMem_convertToString (n : Nat) : hash ∉ convertToString n := fun h =>
  absurd (Decimal.isDigit_of_mem_print h) (by decide)

theorem zero_notMem_convertToString (n : Nat) : (0 : Byte) ∉ convertToString n := fun h =>
  absurd (Decimal.isDigit_of_mem_print h) (by decide)

/-- A random number is made of digits. -/
theorem isDigit_of_mem_randomNumber {N : Nat} {draw : Fin N → Nat} {b : Byte}
    (h : b ∈ randomNumber draw) : Decimal.isDigit b = true := by
  have hall : ∀ i : Fin 20, Decimal.isDigit ((ascii "09182736455463728190").getD i 0) = true := by
    decide
  simp only [randomNumber, List.mem_map] at h
  rcases h with ⟨i, -, rfl⟩
  exact hall ⟨draw i % 20, Nat.mod_lt _ (by norm_num)⟩

/-- A request id is made of digits. -/
theorem isDigit_of_mem_calcRequestId {draw : Fin 32 → Nat} {b : Byte}
    (h : b ∈ calcRequestId draw) : Decimal.isDigit b = true :=
  isDigit_of_mem_randomNumber h

theorem zero_notMem_calcRequestId (draw : Fin 32 → Nat) : (0 : Byte) ∉ calcRequestId draw := by
  intro h
  exact absurd (isDigit_of_mem_calcRequestId h) (by decide)

@[simp] theorem length_randomNumber {N : Nat} (draw : Fin N → Nat) :
    (randomNumber draw).length = N := by
  simp [randomNumber]

end PicoDB
