import PicoDB.Codec
import PicoDB.JsonText

/-!
# PicoDB.MessageText — messages through `Json::Reader`

Here the reader is no parameter any more: `jsoncpp` is the library with the
reader of `PicoDB.JsonReader`, and only `sscanf` and `std::hash` are left open.

* `readBack`: the text of every message is read back.
* `ofJson_text`: so is the text with anything behind it.
* `ofJson_cut`: a text that is cut short and filled up, as by a read that gets
  less than it asked for, gives the same message or stops the process; it never
  gives another message, as long as no closing bracket fills it up.
-/

namespace PicoDB

/-- The library a message goes through. -/
def jsoncpp (scanDouble : Bytes → Option UInt64) (stdHash : Bytes → UInt64) : Externals where
  parse := Json.Reader.reader scanDouble
  stdHash := stdHash

namespace PicoMessage

open Json Json.Reader

variable {scanDouble : Bytes → Option UInt64} {stdHash : Bytes → UInt64}

theorem jsoncpp_parse (s : Bytes) :
    (jsoncpp scanDouble stdHash).parse s = (parse scanDouble s).1 := rfl

/-- The members of a message have their keys in order, so they come out as they
went in. -/
theorem putMembers_members (m : PicoMessage) :
    putMembers m.members [] = m.members.map fun a => (a.1, .stringValue (cString a.2)) := by
  have hkeys : ∀ a ∈ m.members, cString a.1 = a.1 := by
    rw [members_eq]
    simp only [List.forall_mem_cons, List.not_mem_nil, false_imp_iff, implies_true, and_true]
    decide
  have horder : (m.members.map fun a => cString a.1).Pairwise (· < ·) := by
    rw [List.map_congr_left hkeys, members_eq]
    simp only [List.map_cons, List.map_nil]
    decide
  rw [putMembers_append (by simpa using horder), List.nil_append]
  exact List.map_congr_left fun a ha => by rw [hkeys a ha]

/-- **The text of a message is read back.** -/
theorem readBack (m : PicoMessage) : ReadBack (jsoncpp scanDouble stdHash) m := by
  have hparse : (parse scanDouble (StyledWriter.write m.members ++ [])).1 = _ :=
    parse_write m.members []
  rw [List.append_nil, putMembers_members] at hparse
  rw [ReadBack, jsoncpp_parse, convertMessageToJson]
  exact hparse

/-- What the parsing constructor makes of a text that holds the members of `m`:
its fields as C strings, with the text and a hash code of their own. -/
def readAs (X : Externals) (json : Bytes) (m : PicoMessage) : PicoMessage :=
  PicoMessage.setHashCode X { m.asCStrings with json_form_of_message := json }

theorem ofJson_of_parse {X : Externals} {json : Bytes} {m : PicoMessage}
    (h : X.parse json =
      some (.objectValue (m.members.map fun a => (a.1, .stringValue (cString a.2))))) :
    ofJson X json = .ok (m.readAs X json) := by
  have hread : ofJson X json =
      .ok (PicoMessage.setHashCode X
        { m.asCStrings.asCStrings with json_form_of_message := json }) := by
    unfold ofJson
    rw [h, members_eq]
    rfl
  rw [hread]
  simp [asCStrings, readAs]

variable (scanDouble stdHash) in
/-- A text of `m`, up to its closing brace, with anything behind it. -/
theorem ofJson_append (m : PicoMessage) (z : Bytes) :
    ofJson (jsoncpp scanDouble stdHash) (m.convertMessageToJson.dropLast ++ z) =
      .ok (m.readAs (jsoncpp scanDouble stdHash) (m.convertMessageToJson.dropLast ++ z)) := by
  apply ofJson_of_parse
  have hword : PrefixCode.Word (Bracketed scanDouble) _ _ := word_write m.members
  have hread := (bracketed_selfDelimiting.read_append_iff (r := z)).mpr hword
  rw [jsoncpp_parse, parse_eq_some_iff, convertMessageToJson, ← putMembers_members]
  exact ⟨z, hread.1⟩

theorem getLast_convertMessageToJson (m : PicoMessage) :
    m.convertMessageToJson.dropLast ++ [10] = m.convertMessageToJson := by
  have hwrite : m.convertMessageToJson =
      (ascii "\x7b" ++ StyledWriter.membersText (ascii "   ") m.members ++ [10, 125]) ++ [10] := by
    rw [convertMessageToJson, StyledWriter.write_eq m.members_ne_nil,
      show ascii "\n\x7d\n" = [10, 125] ++ [10] from rfl]
    simp only [List.append_assoc]
  rw [hwrite, List.dropLast_concat]

variable (scanDouble stdHash) in
/-- The text of a message, whatever stands behind it. -/
theorem ofJson_text (m : PicoMessage) (junk : Bytes) :
    ofJson (jsoncpp scanDouble stdHash) (m.convertMessageToJson ++ junk) =
      .ok (m.readAs (jsoncpp scanDouble stdHash) (m.convertMessageToJson ++ junk)) := by
  have happend := ofJson_append scanDouble stdHash m ([10] ++ junk)
  rwa [← List.append_assoc, getLast_convertMessageToJson] at happend

/-- **A text that is cut short and filled up.** It gives the message if its
closing brace is there, and fails the assertion of the constructor if not. -/
theorem ofJson_cut (m : PicoMessage) {k : Nat} {z : Bytes} (hk : 0 < k)
    (hz : ∀ c ∈ z, ¬ Bracket c) :
    ofJson (jsoncpp scanDouble stdHash) (m.convertMessageToJson.take k ++ z) =
      if m.convertMessageToJson.length ≤ k + 1 then
        .ok (m.readAs (jsoncpp scanDouble stdHash) (m.convertMessageToJson.take k ++ z))
      else .error (.assertion .parsingSuccessful) := by
  have hlong := m.lt_length_convertMessageToJson
  have hdrop : m.convertMessageToJson.dropLast =
      m.convertMessageToJson.take (m.convertMessageToJson.length - 1) :=
    List.dropLast_eq_take
  split
  · rename_i hle
    obtain ⟨t, ht⟩ : m.convertMessageToJson.dropLast <+: m.convertMessageToJson.take k := by
      rw [hdrop]
      exact List.take_prefix_take_left (by omega)
    rw [← ht, List.append_assoc]
    exact ofJson_append scanDouble stdHash m (t ++ z)
  · rename_i hlt
    have hnone : (jsoncpp scanDouble stdHash).parse (m.convertMessageToJson.take k ++ z) =
        none := by
      rw [jsoncpp_parse]
      have hnil : m.convertMessageToJson.take k ≠ [] := by
        intro hnil
        have := congrArg List.length hnil
        rw [List.length_take, List.length_nil] at this
        omega
      have hprefix : m.convertMessageToJson.take k <+: m.convertMessageToJson.dropLast := by
        rw [hdrop]
        exact List.take_prefix_take_left (by omega)
      have hne : m.convertMessageToJson.take k ≠ m.convertMessageToJson.dropLast := by
        intro heq
        have := congrArg List.length heq
        rw [List.length_take, List.length_dropLast] at this
        omega
      exact parse_write_prefix hnil hprefix hne hz
    unfold ofJson
    rw [hnone]

/-- A request to insert a value. -/
def insertRequest : PicoMessage :=
  { command := ascii "insert", key := ascii "k", value := ascii "v", messageId := ascii "7" }

/-- The request without the end of its line, and with half of it missing. -/
theorem ofJson_cut_insert :
    let X := jsoncpp (fun _ => none) fun _ => 0
    let text := insertRequest.convertMessageToJson
    ofJson X (text.take (text.length - 1) ++ [0]) =
        .ok (insertRequest.readAs X (text.take (text.length - 1) ++ [0])) ∧
      ofJson X (text.take (text.length / 2) ++ ascii "key") =
        .error (.assertion .parsingSuccessful) := by
  intro X text
  have hlong : 4 < insertRequest.convertMessageToJson.length := by decide +kernel
  have hzero : ∀ c ∈ [(0 : Byte)], ¬ Reader.Bracket c := by simp [Reader.Bracket]
  have hkey : ∀ c ∈ ascii "key", ¬ (c = 125 ∨ c = 93) := by decide +kernel
  have hwhole : ∀ n, 4 < n → 0 < n - 1 ∧ n ≤ n - 1 + 1 := by omega
  have hhalf : ∀ n, 4 < n → 0 < n / 2 ∧ ¬ n ≤ n / 2 + 1 := by omega
  constructor
  · exact (ofJson_cut insertRequest (hwhole _ hlong).1 hzero).trans (if_pos (hwhole _ hlong).2)
  · exact (ofJson_cut insertRequest (hhalf _ hlong).1 hkey).trans (if_neg (hhalf _ hlong).2)

end PicoMessage

end PicoDB
