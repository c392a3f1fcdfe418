import PicoDB.MessageText
import PicoDB.Reader

/-!
# PicoDB.Framing — `writeOneBuffer`, and reading back what it wrote

A frame is ten header bytes and `dataSize` body bytes. Both are sent from C
strings with a byte count beside them, so what lies behind the strings in
memory can end up on the wire: it is the `Memory` of a write, one for each.

* `decode_header`: what a header decodes to, whatever is in its padding.
* `frames_round_trip`: bodies written one after the other are read back, for
  both directions of a connection, if each of them can be sent (`Sendable`) and
  is accepted where it is handed on.
* `header_states_size_iff`: which sizes a header can state.
* `bodies_are_messages_iff`: which messages are read back as messages.
-/

namespace PicoDB

/-! ## Writing -/

/-- What lies behind the strings a write reads from. -/
structure Memory where
  /-- behind the heap buffer of the record -/
  beyond : Bytes
  /-- behind the terminator of `properMessageAboutSize` -/
  pad : Nat → Byte
  /-- behind the terminator of the data -/
  slack : Nat → Byte

/-- The two writes of `writeOneMessageToOtherSide`. -/
structure Frame where
  header : Bytes
  body : Bytes
deriving DecidableEq, Repr

namespace Frame

/-- The bytes on the wire. -/
def bytes (f : Frame) : Bytes := f.header ++ f.body

end Frame

/-- `writeOneBuffer` from the popped record on; `dataSizeAsStr` is the text it
has for the size. -/
def writeOneBuffer (dataSizeAsStr : Nat → Bytes) (M : Memory) (currentBuffer : PicoRecord) :
    Except Fault Frame := do
  let (data, _) ← currentBuffer.getDataForWrite M.beyond
  let dataSize := currentBuffer.getSize
  let properMessageAboutSize := getProperMessageAboutSize (dataSizeAsStr dataSize) []
  .ok { header := fromCStr properMessageAboutSize M.pad 10, body := fromCStr data M.slack dataSize }

/-- `PonocoDriver::writeOneBuffer`. -/
def Driver.writeOneBuffer : Memory → PicoRecord → Except Fault Frame :=
  PicoDB.writeOneBuffer convertToString

/-- `pico_session::writeOneBuffer`. Its `dataSizeAsStr` is the `c_str()` of a
string that is gone at the end of the statement; `dangling n` is what is found
there for size `n`. -/
def Session.writeOneBuffer (dangling : Nat → Bytes) : Memory → PicoRecord → Except Fault Frame :=
  PicoDB.writeOneBuffer fun n => cString (dangling n)

/-! ## The header -/

/-- The ten header bytes for a size text. -/
def header (text : Bytes) (pad : Nat → Byte) : Bytes :=
  fromCStr (getProperMessageAboutSize text []) pad 10

@[simp] theorem header_length (text : Bytes) (pad : Nat → Byte) :
    (header text pad).length = 10 := fromCStr_length _ _ _

/-- A text of at least six characters is cut to six, a shorter one is followed
by its terminator and padding. -/
theorem header_eq (text : Bytes) (pad : Nat → Byte) :
    ∃ junk, header text pad = List.replicate 4 hash ++ (text.take 6 ++ junk) ∧
      (junk = [] ∨ ∃ rest, junk = 0 :: rest) := by
  have hlen : (getProperMessageAboutSize text []).length = 4 + text.length := by
    simp only [getProperMessageAboutSize, List.nil_append, List.length_append,
      List.length_replicate]
  by_cases h : 6 ≤ text.length
  · -- ten bytes of the text: what is behind its terminator is not sent
    refine ⟨[], ?_, Or.inl rfl⟩
    rw [header, fromCStr_of_le pad (by omega)]
    simp [getProperMessageAboutSize]
  · -- the terminator is sent, and padding after it
    rcases fromCStr_of_lt (s := getProperMessageAboutSize text []) (n := 10) pad (by omega)
      with ⟨junk, hjunk⟩
    refine ⟨0 :: junk, ?_, Or.inr ⟨junk, rfl⟩⟩
    rw [header, hjunk, List.take_of_length_le (by omega)]
    simp [getProperMessageAboutSize]

/-- Every header is recognised as a size info, whatever its text. -/
theorem isThisRecordASizeInfo_header (text : Bytes) (pad : Nat → Byte) :
    (PicoRecord.ofString (header text pad)).isThisRecordASizeInfo = true := by
  rcases header_eq text pad with ⟨junk, hjunk, -⟩
  have hlen := header_length text pad
  rw [hjunk] at hlen ⊢
  refine PicoRecord.isThisRecordASizeInfo_of_prefix fun h => ?_
  rw [h] at hlen
  simp at hlen

/-- **What a header decodes to.** The first six characters of the text but for
`'#'`, read as a number; the padding never matters. -/
theorem verdict_header {text : Bytes} (hzero : (0 : Byte) ∉ text) (pad : Nat → Byte) {r : ReadSome}
    (hr : r.buffer = header text pad) :
    r.verdict =
      (convertToSomething ((text.take 6).filter (· ≠ hash))).map Verdict.readNext := by
  have hinfo : (PicoRecord.ofString r.buffer).isThisRecordASizeInfo = true := by
    rw [hr]
    exact isThisRecordASizeInfo_header text pad
  have hzero' : (0 : Byte) ∉ (text.take 6).filter (· ≠ hash) := fun h =>
    hzero (List.mem_of_mem_take (List.mem_filter.mp h).1)
  rcases header_eq text pad with ⟨junk, hjunk, htail⟩
  have hfilter : r.buffer.filter (· ≠ hash) =
      (text.take 6).filter (· ≠ hash) ++ junk.filter (· ≠ hash) := by
    rw [hr, hjunk, List.filter_append, List.filter_append]
    simp
  rw [ReadSome.verdict_sizeInfo hinfo, hfilter]
  rcases htail with rfl | ⟨rest, rfl⟩
  · rw [List.filter_nil, List.append_nil, cString_of_zero_notMem hzero']
  · -- the terminator ends the number, whatever follows it
    have hterm : (0 :: rest).filter (· ≠ hash) = 0 :: rest.filter (· ≠ hash) := by
      simp [hash]
    rw [hterm, cString_append_zero hzero']

/-- A text without `'#'` is decoded as it is. -/
theorem decode_header {text : Bytes} (hhash : hash ∉ text) (hzero : (0 : Byte) ∉ text)
    (pad : Nat → Byte) {r : ReadSome} (hr : r.buffer = header text pad) :
    r.verdict = (convertToSomething (text.take 6)).map Verdict.readNext := by
  have hkeep : (text.take 6).filter (· ≠ hash) = text.take 6 := by
    rw [List.filter_eq_self]
    intro b hb
    have hne : b ≠ hash := fun h => hhash (h ▸ List.mem_of_mem_take hb)
    simpa using hne
  rw [verdict_header hzero pad hr, hkeep]

/-- A size of at most six digits is stated and read back. -/
theorem decode_header_of_lt {n : Nat} (h : n < 10 ^ 6) (pad : Nat → Byte) {r : ReadSome}
    (hr : r.buffer = header (convertToString n) pad) : r.verdict = .ok (.readNext n) := by
  have hlen : (convertToString n).length ≤ 6 := Decimal.length_print_le (by norm_num) h
  rw [decode_header (hash_notMem_convertToString n) (zero_notMem_convertToString n) pad hr,
    List.take_of_length_le hlen, convertToSomething_convertToString (h.trans (by norm_num))]
  rfl

/-- A longer one is cut, and what is read back is below `10 ^ 6`. -/
theorem lt_of_decode_header {n : Nat} {pad : Nat → Byte} {r : ReadSome} {m : Int}
    (hr : r.buffer = header (convertToString n) pad) (h : r.verdict = .ok (.readNext m)) :
    m < 10 ^ 6 := by
  rw [decode_header (hash_notMem_convertToString n) (zero_notMem_convertToString n) pad hr] at h
  rcases map_eq_ok h with ⟨m', hm', heq⟩
  cases heq
  exact (convertToSomething_bounds hm' (by simp)).2

/-! ## Frames -/

/-- `f` is what a write of a fresh record of `b` sends, over some memory. -/
def Written (write : Memory → PicoRecord → Except Fault Frame) (b : Bytes) (f : Frame) : Prop :=
  ∃ M, write M (.ofString b) = .ok f

theorem writeOneBuffer_header {text : Nat → Bytes} {M : Memory} {r : PicoRecord} {f : Frame}
    (h : writeOneBuffer text M r = .ok f) : f.header = header (text r.getSize) M.pad := by
  rcases bind_eq_ok h with ⟨⟨data, r'⟩, -, hf⟩
  cases hf
  rfl

/-- A body without NUL bytes is sent as it is. -/
theorem writeOneBuffer_body {text : Nat → Bytes} {M : Memory} {b : Bytes} {f : Frame}
    (h0 : (0 : Byte) ∉ b) (h : writeOneBuffer text M (.ofString b) = .ok f) : f.body = b := by
  rcases bind_eq_ok h with ⟨⟨data, r'⟩, hdata, hf⟩
  cases hf
  have hd : data = b ++ cString M.beyond := PicoRecord.getDataForWrite_ofString h0 hdata
  have hle : b.length ≤ (b ++ cString M.beyond).length := by
    rw [List.length_append]
    omega
  show fromCStr data M.slack b.length = b
  rw [hd, fromCStr_of_le _ hle, List.take_left]

/-- A body that a frame can carry: no NUL, one to 999,999 bytes, and not taken
for a size info. -/
structure Sendable (b : Bytes) : Prop where
  zero_notMem : (0 : Byte) ∉ b
  pos : 1 ≤ b.length
  le : b.length ≤ 999999
  notSizeInfo : (PicoRecord.ofString b).isThisRecordASizeInfo = false

instance (b : Bytes) : Decidable (Sendable b) :=
  decidable_of_iff ((0 : Byte) ∉ b ∧ 1 ≤ b.length ∧ b.length ≤ 999999 ∧
      (PicoRecord.ofString b).isThisRecordASizeInfo = false)
    ⟨fun ⟨hzero, hpos, hle, hinfo⟩ => ⟨hzero, hpos, hle, hinfo⟩,
      fun h => ⟨h.zero_notMem, h.pos, h.le, h.notSizeInfo⟩⟩

section RoundTrip

variable {sizeToRead : Int → Except Fault Nat} {text : Nat → Bytes}

/-- One frame at the front of a stream: two reads, and its body comes out. -/
theorem readOneBuffer_frame (hsize : Faithful sizeToRead)
    (htext : ∀ n, text n = convertToString n) {b : Bytes} (hb : Sendable b) {f : Frame}
    (hf : Written (writeOneBuffer text) b f) {depth : Nat} (hdepth : 2 ≤ depth) (rest : Bytes) :
    ∃ steps, readOneBuffer sizeToRead wholeReads depth 10 (f.bytes ++ rest) =
      (steps, .message b rest) := by
  obtain ⟨k, rfl⟩ : ∃ k, depth = k + 2 := ⟨depth - 2, by omega⟩
  rcases hf with ⟨M, hM⟩
  have hheader : f.header = header (convertToString b.length) M.pad := by
    rw [writeOneBuffer_header hM, htext, PicoRecord.ofString_getSize]
  have hbody : f.body = b := writeOneBuffer_body hb.zero_notMem hM
  have hlen : f.header.length = 10 := by rw [hheader, header_length]
  have hle := hb.le
  have hpos := hb.pos
  -- the header
  have hread : wholeReads 10 (f.bytes ++ rest) = some (⟨10, false, f.header⟩, b ++ rest) := by
    have h := wholeReads_append f.header (b ++ rest)
    rw [hlen] at h
    rw [Frame.bytes, hbody, List.append_assoc, h]
  have hv : ReadSome.verdict ⟨10, false, f.header⟩ = .ok (.readNext b.length) :=
    decode_header_of_lt (by omega) M.pad hheader
  -- the body
  have hread' : wholeReads b.length (b ++ rest) = some (⟨b.length, false, b⟩, rest) :=
    wholeReads_append b rest
  have hne : b ≠ [] := by
    rintro rfl
    simp at hpos
  have hv' : ReadSome.verdict ⟨b.length, false, b⟩ = .ok (.message b) :=
    ReadSome.verdict_message hne hb.notSizeInfo
  have hten : sizeToRead 10 = .ok 10 := hsize 10 (by norm_num) (by norm_num)
  have hsz : sizeToRead b.length = .ok b.length := hsize b.length hpos (by omega)
  rw [readOneBuffer_readNext hten hread hv, readOneBuffer_message hsz hread' hv']
  exact ⟨_, rfl⟩

/-- Frames at the front of a stream: as many calls hand over their bodies. -/
theorem readCalls_frames (hsize : Faithful sizeToRead) (htext : ∀ n, text n = convertToString n)
    {bodies : List Bytes} {frames : List Frame} (hbodies : ∀ b ∈ bodies, Sendable b)
    (hframes : List.Forall₂ (Written (writeOneBuffer text)) bodies frames)
    {deliver : Bytes → Bytes → Except Fault Bytes}
    (hdeliver : ∀ b ∈ bodies, ∀ s, deliver b s = .ok s)
    {depth : Nat} (hdepth : 2 ≤ depth) (calls : Nat) (rest : Bytes) :
    ∃ steps, readCalls sizeToRead wholeReads deliver depth (bodies.length + calls)
        (frames.flatMap Frame.bytes ++ rest) =
      let t := readCalls sizeToRead wholeReads deliver depth calls rest
      ⟨steps ++ t.steps, bodies ++ t.handed, t.ending⟩ := by
  induction hframes with
  | nil => exact ⟨[], by simp⟩
  | @cons b f bodies frames hf _ ih =>
    -- one call takes the first frame and leaves the stream at the next one
    have hb := hbodies b List.mem_cons_self
    rcases readOneBuffer_frame hsize htext hb hf hdepth (frames.flatMap Frame.bytes ++ rest)
      with ⟨steps, hcall⟩
    rcases ih (fun c hc => hbodies c (List.mem_cons_of_mem _ hc))
      (fun c hc => hdeliver c (List.mem_cons_of_mem _ hc)) with ⟨steps', hrest⟩
    refine ⟨steps ++ steps', ?_⟩
    have hnext := hdeliver b List.mem_cons_self (frames.flatMap Frame.bytes ++ rest)
    rw [List.length_cons, Nat.add_right_comm, List.flatMap_cons, List.append_assoc, readCalls,
      hcall]
    simp only [hnext, hrest, List.append_assoc, List.cons_append]

/-- At the end of a stream the next call waits. -/
theorem readCalls_nil (hsize : Faithful sizeToRead)
    (deliver : Bytes → Bytes → Except Fault Bytes) {depth : Nat} (hdepth : 2 ≤ depth)
    (calls : Nat) :
    readCalls sizeToRead wholeReads deliver depth (calls + 1) [] =
      ⟨[⟨10, none⟩], [], .waits []⟩ := by
  obtain ⟨k, rfl⟩ : ∃ k, depth = k + 1 := ⟨depth - 1, by omega⟩
  have hten : sizeToRead 10 = .ok 10 := hsize 10 (by norm_num) (by norm_num)
  rw [readCalls, readOneBuffer_waits hten rfl]

end RoundTrip

/-- The calls on a stream hand over `bodies`, one each and in order; when all
are handed over the stream is used up, and the next call waits. -/
def ReadsBack (sizeToRead : Int → Except Fault Nat) (deliver : Bytes → Bytes → Except Fault Bytes)
    (depth : Nat) (stream : Bytes) (bodies : List Bytes) : Prop :=
  ∀ calls,
    (readCalls sizeToRead wholeReads deliver depth calls stream).handed = bodies.take calls ∧
    (calls = bodies.length →
      (readCalls sizeToRead wholeReads deliver depth calls stream).ending = .returned []) ∧
    (bodies.length < calls →
      (readCalls sizeToRead wholeReads deliver depth calls stream).ending = .waits [])

theorem readsBack_frames {sizeToRead : Int → Except Fault Nat} (hsize : Faithful sizeToRead)
    {text : Nat → Bytes} (htext : ∀ n, text n = convertToString n) {bodies : List Bytes}
    {frames : List Frame} (hbodies : ∀ b ∈ bodies, Sendable b)
    (hframes : List.Forall₂ (Written (writeOneBuffer text)) bodies frames)
    {deliver : Bytes → Bytes → Except Fault Bytes}
    (hdeliver : ∀ b ∈ bodies, ∀ s, deliver b s = .ok s) {depth : Nat} (hdepth : 2 ≤ depth) :
    ReadsBack sizeToRead deliver depth (frames.flatMap Frame.bytes) bodies := by
  intro calls
  rcases Nat.lt_or_ge bodies.length calls with hlt | hge
  · -- more calls than bodies
    obtain ⟨more, rfl⟩ : ∃ more, calls = bodies.length + (more + 1) :=
      ⟨calls - bodies.length - 1, by omega⟩
    rcases readCalls_frames hsize htext hbodies hframes hdeliver hdepth (more + 1) []
      with ⟨steps, h⟩
    rw [List.append_nil, readCalls_nil hsize deliver hdepth] at h
    rw [h]
    refine ⟨?_, fun h => by omega, fun _ => rfl⟩
    rw [List.take_of_length_le (by omega)]
    exact List.append_nil bodies
  · -- the calls read the first frames only
    have hcalls : (bodies.take calls).length = calls := by
      rw [List.length_take]
      omega
    rcases readCalls_frames hsize htext (fun b hb => hbodies b (List.mem_of_mem_take hb))
      (List.forall₂_take calls hframes) (fun b hb => hdeliver b (List.mem_of_mem_take hb)) hdepth
      0 ((frames.drop calls).flatMap Frame.bytes) with ⟨steps, h⟩
    rw [← List.flatMap_append, List.take_append_drop, hcalls, Nat.add_zero] at h
    rw [h]
    refine ⟨by simp [readCalls], fun hall => ?_, fun h => by omega⟩
    have hdrop : frames.drop calls = [] := by
      rw [List.drop_eq_nil_iff, ← hframes.length_eq]
      omega
    simp [readCalls, hdrop]

/-- **Frame stream round trip.** What one side writes, body after body, the
other side hands to `pico_message`, in both directions, and the reads end
where the frames end. -/
theorem frames_round_trip {bodies : List Bytes} {frames : List Frame}
    (hbodies : ∀ b ∈ bodies, Sendable b) {dangling : Nat → Bytes}
    (hdangling : ∀ n, cString (dangling n) = convertToString n)
    {deliver : Bytes → Bytes → Except Fault Bytes}
    (hdeliver : ∀ b ∈ bodies, ∀ s, deliver b s = .ok s) {depth : Nat} (hdepth : 2 ≤ depth) :
    (List.Forall₂ (Written Driver.writeOneBuffer) bodies frames →
      ReadsBack Session.sizeToRead deliver depth (frames.flatMap Frame.bytes) bodies) ∧
    (List.Forall₂ (Written (Session.writeOneBuffer dangling)) bodies frames →
      ReadsBack Driver.sizeToRead deliver depth (frames.flatMap Frame.bytes) bodies) :=
  ⟨fun h => readsBack_frames Session.faithful (fun _ => rfl) hbodies h hdeliver hdepth,
    fun h => readsBack_frames Driver.faithful hdangling hbodies h hdeliver hdepth⟩

/-- Memory that holds no surprise: zeros everywhere. -/
def Memory.zeros : Memory := ⟨[], fun _ => 0, fun _ => 0⟩

/-- The body goes to `pico_message(string)`, which may refuse it. -/
def constructMessage {σ : Type} (X : Externals) (str : Bytes) (s : σ) : Except Fault σ :=
  (PicoMessage.ofJson X str).map fun _ => s

/-- Whether it does depends on the body alone. -/
theorem constructMessage_eq_ok {σ : Type} {X : Externals} {str : Bytes}
    (h : constructMessage X str () = .ok ()) (s : σ) : constructMessage X str s = .ok s := by
  obtain ⟨m, hm, -⟩ := map_eq_ok h
  rw [constructMessage, hm]
  rfl

/-- A message with a key, and one of defaults only. -/
theorem frames_round_trip_two :
    let X := jsoncpp (fun _ => none) fun _ => 0
    let bodies := [ascii "\x7b\"key\":\"k\"\x7d", ascii "\x7b \x7d"]
    let stream := ascii "####11" ++ [0, 0, 0, 0] ++ ascii "\x7b\"key\":\"k\"\x7d" ++
      (ascii "####3" ++ [0, 0, 0, 0, 0] ++ ascii "\x7b \x7d")
    ReadsBack Session.sizeToRead (constructMessage X) 2 stream bodies ∧
      ReadsBack Driver.sizeToRead (constructMessage X) 2 stream bodies := by
  intro X bodies stream
  have hbodies : ∀ b ∈ bodies, Sendable b := by decide +kernel
  have hdangling : ∀ n, cString (convertToString n) = convertToString n :=
    fun n => cString_of_zero_notMem (zero_notMem_convertToString n)
  have hdeliver : ∀ b ∈ bodies, ∀ s : Bytes, constructMessage X b s = .ok s := by
    have haccepted : ∀ b ∈ bodies, constructMessage X b () = .ok () := by decide +kernel
    exact fun b hb => constructMessage_eq_ok (haccepted b hb)
  let frames : List Frame :=
    [⟨ascii "####11" ++ [0, 0, 0, 0], ascii "\x7b\"key\":\"k\"\x7d"⟩,
      ⟨ascii "####3" ++ [0, 0, 0, 0, 0], ascii "\x7b \x7d"⟩]
  have hdriver : List.Forall₂ (Written Driver.writeOneBuffer) bodies frames :=
    .cons ⟨.zeros, rfl⟩ (.cons ⟨.zeros, rfl⟩ .nil)
  have hsession : List.Forall₂ (Written (Session.writeOneBuffer convertToString)) bodies frames :=
    .cons ⟨.zeros, rfl⟩ (.cons ⟨.zeros, rfl⟩ .nil)
  exact ⟨(frames_round_trip hbodies hdangling hdeliver (le_refl 2)).1 hdriver,
    (frames_round_trip hbodies hdangling hdeliver (le_refl 2)).2 hsession⟩

/-- Bodies that are no documents: the first stops the process, the second is never
handed on. -/
theorem frames_not_handed_on :
    let X := jsoncpp (fun _ => none) fun _ => 0
    let bodies := [ascii "abc", ascii "defg"]
    let frames : List Frame := [⟨ascii "####3" ++ [0, 0, 0, 0, 0], ascii "abc"⟩,
      ⟨ascii "####4" ++ [0, 0, 0, 0, 0], ascii "defg"⟩]
    let stream := frames.flatMap Frame.bytes
    let t := readCalls Session.sizeToRead wholeReads (constructMessage X) 2 2 stream
    (∀ b ∈ bodies, Sendable b) ∧ List.Forall₂ (Written Driver.writeOneBuffer) bodies frames ∧
      t.handed = [ascii "abc"] ∧ t.ending = .stops (.assertion .parsingSuccessful) ∧
      ¬ ReadsBack Session.sizeToRead (constructMessage X) 2 stream bodies := by
  intro X bodies frames stream t
  have hbodies : ∀ b ∈ bodies, Sendable b := by decide +kernel
  have hrun : t.handed = [ascii "abc"] ∧ t.ending = .stops (.assertion .parsingSuccessful) := by
    decide +kernel
  refine ⟨hbodies, .cons ⟨.zeros, rfl⟩ (.cons ⟨.zeros, rfl⟩ .nil), hrun.1, hrun.2, fun h => ?_⟩
  have hall : t.handed = bodies.take 2 := (h 2).1
  rw [hrun.1] at hall
  exact absurd hall (by decide)

/-! ## The sizes a header can state -/

/-- The header is recognised and decoded to `n`. -/
def StatesSize (hdr : Bytes) (n : Nat) : Prop :=
  (PicoRecord.ofString hdr).isThisRecordASizeInfo = true ∧
    ∀ t, processTheBufferJustRead (.ofString hdr) t = .ok (.readNext n)

theorem statesSize_header_iff (n : Nat) (pad : Nat → Byte) :
    StatesSize (header (convertToString n) pad) n ↔ n ≤ 999999 := by
  constructor
  · rintro ⟨-, h⟩
    have hlt := lt_of_decode_header (r := ⟨10, false, header (convertToString n) pad⟩) rfl (h 10)
    omega
  · intro h
    exact ⟨isThisRecordASizeInfo_header _ _, fun t =>
      decode_header_of_lt (r := ⟨t, false, _⟩) (by omega) pad rfl⟩

/-- A header with any text behind the marker. -/
theorem statesSize_iff_spells {text : Bytes} (hzero : (0 : Byte) ∉ text) (n : Nat)
    (pad : Nat → Byte) :
    StatesSize (header text pad) n ↔ Spells ((text.take 6).filter (· ≠ hash)) n := by
  have hsix : ((text.take 6).filter (· ≠ hash)).length ≤ 6 :=
    (List.length_filter_le _ _).trans (by rw [List.length_take]; omega)
  have hdecode : ∀ t, processTheBufferJustRead (.ofString (header text pad)) t =
      (convertToSomething ((text.take 6).filter (· ≠ hash))).map Verdict.readNext := fun t =>
    verdict_header (r := ⟨t, false, header text pad⟩) hzero pad rfl
  constructor
  · rintro ⟨-, h⟩
    obtain ⟨m, hm, heq⟩ := map_eq_ok ((hdecode 10).symm.trans (h 10))
    cases heq
    exact (convertToSomething_eq_ok_iff.mp hm).1
  · intro h
    refine ⟨isThisRecordASizeInfo_header _ _, fun t => ?_⟩
    rw [hdecode t, convertToSomething_eq_ok_iff.mpr ⟨h, h.bounds hsix⟩]
    rfl

/-- **The sizes a header can state.** A header of the driver tells the size of its
body exactly up to six digits. One of the session tells it when what is found behind
its dangling pointer spells the size in its first six characters, `'#'` left out; as
long as that is still the text of the size, up to six digits. -/
theorem header_states_size_iff (M : Memory) (r : PicoRecord) (f : Frame) :
    (Driver.writeOneBuffer M r = .ok f → (StatesSize f.header r.getSize ↔ r.getSize ≤ 999999)) ∧
      (∀ dangling, Session.writeOneBuffer dangling M r = .ok f →
        (StatesSize f.header r.getSize ↔
          Spells (((cString (dangling r.getSize)).take 6).filter (· ≠ hash)) r.getSize)) ∧
      ∀ dangling, cString (dangling r.getSize) = convertToString r.getSize →
        Session.writeOneBuffer dangling M r = .ok f →
          (StatesSize f.header r.getSize ↔ r.getSize ≤ 999999) := by
  refine ⟨fun h => ?_, fun dangling h => ?_, fun dangling hd h => ?_⟩
  · rw [writeOneBuffer_header h]
    exact statesSize_header_iff _ _
  · rw [writeOneBuffer_header h]
    exact statesSize_iff_spells (zero_notMem_cString _) _ _
  · rw [writeOneBuffer_header h, hd]
    exact statesSize_header_iff _ _

theorem header_states_size_three :
    let hdr := ascii "####3" ++ [0, 0, 0, 0, 0]
    let left := ascii "####+03#" ++ [0, 0]
    (StatesSize hdr 3 ↔ 3 ≤ 999999) ∧ (StatesSize left 3 ↔ Spells (ascii "+03") 3) ∧
      (StatesSize hdr 3 ↔ 3 ≤ 999999) := by
  intro hdr left
  have h := header_states_size_iff .zeros (.ofString (ascii "abc")) ⟨hdr, ascii "abc"⟩
  have hleft := header_states_size_iff .zeros (.ofString (ascii "abc")) ⟨left, ascii "abc"⟩
  exact ⟨h.1 rfl, hleft.2.1 (fun _ => ascii "+03#") rfl, h.2.2 convertToString (by decide) rfl⟩

/-- A body of a million bytes is announced as one of a hundred thousand; and one of
three bytes is not announced at all, when nothing is left of the size text. -/
theorem million_announced_as_hundred_thousand :
    (∃ f, Driver.writeOneBuffer .zeros (.ofString (List.replicate 1000000 65)) = .ok f ∧
        f.body.length = 1000000 ∧
        processTheBufferJustRead (.ofString f.header) 10 = .ok (.readNext 100000) ∧
        ¬ StatesSize f.header 1000000) ∧
      ∃ f, Session.writeOneBuffer (fun _ => []) .zeros (.ofString (ascii "abc")) = .ok f ∧
        ¬ StatesSize f.header 3 := by
  refine ⟨?_, ⟨ascii "####" ++ List.replicate 6 0, ascii "abc"⟩, rfl, fun h => ?_⟩
  swap
  · have hfault : processTheBufferJustRead (.ofString (ascii "####" ++ List.replicate 6 0)) 10 =
        .error (.exception .badLexicalCast) := by decide
    exact absurd ((h.2 10).symm.trans hfault) (by simp)
  have h0 : (0 : Byte) ∉ List.replicate 1000000 (65 : Byte) := by
    intro h
    exact absurd (List.eq_of_mem_replicate h) (by decide)
  rcases PicoRecord.getDataForWrite_ofString_ok [] h0 (by rw [List.length_replicate]; norm_num)
    with ⟨r, hr⟩
  have hwrite : ∃ f, Driver.writeOneBuffer .zeros (.ofString (List.replicate 1000000 65)) =
      .ok f := by
    simp only [Driver.writeOneBuffer, writeOneBuffer, Memory.zeros, hr]
    exact ⟨_, rfl⟩
  rcases hwrite with ⟨f, hf⟩
  have hheader : f.header = header (convertToString 1000000) Memory.zeros.pad := by
    rw [writeOneBuffer_header hf, PicoRecord.ofString_getSize, List.length_replicate]
  have hdecode : processTheBufferJustRead (.ofString f.header) 10 = .ok (.readNext 100000) := by
    have htext : convertToSomething ((convertToString 1000000).take 6) = .ok 100000 := by decide
    have h := decode_header (hash_notMem_convertToString 1000000)
      (zero_notMem_convertToString 1000000) Memory.zeros.pad (r := ⟨10, false, f.header⟩) hheader
    rwa [htext] at h
  refine ⟨f, hf, ?_, hdecode, fun h => ?_⟩
  · rw [writeOneBuffer_body h0 hf, List.length_replicate]
  · have heq := (h.2 10).symm.trans hdecode
    simp at heq

/-! ## Headers and bodies -/

/-- **Bodies are messages.** The record of a message built from fields is read
as a message, and not as a size, exactly when none of the fields shows four
`'#'` in a row before its first NUL; a header is recognised in any case. -/
theorem bodies_are_messages_iff (X : Externals) (draw : Fin 32 → Nat) (a : FieldArgs) :
    (((a.build X draw).getCompleteMessageInJsonAsOnBuffer.isThisRecordASizeInfo = false ∧
        ∀ t, processTheBufferJustRead (a.build X draw).getCompleteMessageInJsonAsOnBuffer t =
          .ok (.message (a.build X draw).json_form_of_message)) ∧
      (∀ M r f, Driver.writeOneBuffer M r = .ok f →
        (PicoRecord.ofString f.header).isThisRecordASizeInfo = true) ∧
      ∀ dangling M r f, Session.writeOneBuffer dangling M r = .ok f →
        (PicoRecord.ofString f.header).isThisRecordASizeInfo = true) ↔
      ∀ s ∈ a.fields, ¬ List.replicate 4 hash <:+: cString s := by
  have hiff := a.isThisRecordASizeInfo_build_iff X draw
  constructor
  · rintro ⟨⟨h, -⟩, -⟩ s hs hrun
    rw [hiff.mpr ⟨s, hs, hrun⟩] at h
    cases h
  · intro h
    have hinfo : (a.build X draw).getCompleteMessageInJsonAsOnBuffer.isThisRecordASizeInfo =
        false := by
      rw [← Bool.not_eq_true, hiff]
      rintro ⟨s, hs, hrun⟩
      exact h s hs hrun
    refine ⟨⟨hinfo, fun t => ?_⟩, ?_, ?_⟩
    · have hlong := (a.assigned draw).lt_length_convertMessageToJson
      have hne : (a.build X draw).json_form_of_message ≠ [] := by
        intro h0
        rw [FieldArgs.build, PicoMessage.complete_json] at h0
        rw [h0] at hlong
        simp at hlong
      exact ReadSome.verdict_message
        (r := ⟨t, false, (a.build X draw).json_form_of_message⟩) hne hinfo
    · intro M r f hf
      rw [writeOneBuffer_header hf]
      exact isThisRecordASizeInfo_header _ _
    · intro dangling M r f hf
      rw [writeOneBuffer_header hf]
      exact isThisRecordASizeInfo_header _ _

/-- A message with the key `####` is taken for a size. -/
theorem key_of_hashes_is_a_size :
    let m := (FieldArgs.insert (ascii "####") (ascii "v") (ascii "insert") (ascii "db")
      (ascii "user") (ascii "col")).build ⟨fun _ => none, fun _ => 0⟩ fun _ => 0
    m.getCompleteMessageInJsonAsOnBuffer.isThisRecordASizeInfo = true ∧
      ∀ str, processTheBufferJustRead m.getCompleteMessageInJsonAsOnBuffer 0 ≠
        .ok (.message str) := by
  intro m
  have hinfo : m.getCompleteMessageInJsonAsOnBuffer.isThisRecordASizeInfo = true :=
    (FieldArgs.isThisRecordASizeInfo_build_iff _ _ _).mpr
      ⟨ascii "####", List.mem_cons_self, by decide⟩
  refine ⟨hinfo, fun str h => ?_⟩
  have hv := ReadSome.verdict_sizeInfo (r := ⟨0, false, m.json_form_of_message⟩) hinfo
  rcases map_eq_ok (hv.symm.trans h) with ⟨_, -, heq⟩
  cases heq

end PicoDB
