import QueryEngine.Proofs.Tuple.Concat
import QueryEngine.Proofs.Tuple.Readers

/-!
# Texts that are longer than their word can say

The word before a text has four bytes, and nothing keeps a longer text out if the schema and the
limit of the layout have room for it. Of its length only the low thirty-two bits are written then,
and the row cannot be read back.

* `Layout.words_of_encode`: what stands before each text of a row, and which rows are read back.
* `Layout.field_text`: how much of a text is read.
* `Layout.decode_long`: the shortest row that is not read back.
-/

namespace QueryEngine

/-- A text is read as far as the word before it says. -/
theorem Value.decode_text (pre bytes post : List UInt8) :
    decode .text (pre ++ (encode (text bytes) ++ post)) pre.length =
      .ok (text (bytes.take (bytes.length % 2 ^ 32)), pre.length + 4 + bytes.length % 2 ^ 32) := by
  have hword : readWord (pre ++ (encode (text bytes) ++ post)) pre.length =
      .ok (bytes.length % 2 ^ 32) := by
    rw [encode, List.append_assoc, readWord_append]
  have hle : bytes.length % 2 ^ 32 ≤ bytes.length := Nat.mod_le _ _
  have hstop : pre.length + 4 + bytes.length % 2 ^ 32 ≤
      (pre ++ (encode (text bytes) ++ post)).length := by
    rw [List.length_append, List.length_append, length_encode, encodedLength]
    omega
  have hdrop : (pre ++ (encode (text bytes) ++ post)).drop (pre.length + 4) = bytes ++ post := by
    rw [← List.drop_drop, List.drop_left, encode, List.append_assoc,
      List.drop_left' (Word.length_bytes _)]
  simp only [decode, hword, if_pos hstop, hdrop, List.take_append_of_le_length hle]

namespace Layout

variable {l : Layout} {row : List Value} {t : Tuple} {i : Nat} {bytes : List UInt8} {v : Value}

/-- A field stands behind those before it. -/
theorem bytes_eq_of_getElem? (hrow : row[i]? = some v) (ht : t.bytes = row.flatMap Value.encode) :
    t.bytes = (row.take i).flatMap Value.encode ++
      (v.encode ++ (row.drop (i + 1)).flatMap Value.encode) := by
  obtain ⟨hi, rfl⟩ := List.getElem?_eq_some_iff.1 hrow
  rw [ht, ← List.flatMap_cons, ← List.drop_eq_getElem_cons hi, ← List.flatMap_append,
    List.take_append_drop]

theorem readWord_of_encode (h : l.encode row = .ok t) (hrow : row[i]? = some (.text bytes)) :
    Value.readWord t.bytes (rowLength (row.take i)) = .ok (bytes.length % 2 ^ 32) := by
  obtain ⟨-, -, ht⟩ := eq_of_encode h
  rw [bytes_eq_of_getElem? hrow ht, rowLength_eq, Value.encode, List.append_assoc,
    Value.readWord_append]

theorem take_drop_of_encode (h : l.encode row = .ok t) (hrow : row[i]? = some (.text bytes)) :
    (t.bytes.drop (rowLength (row.take i) + 4)).take bytes.length = bytes := by
  obtain ⟨-, -, ht⟩ := eq_of_encode h
  rw [bytes_eq_of_getElem? hrow ht, rowLength_eq, Value.encode, ← List.drop_drop, List.drop_left,
    List.append_assoc, List.drop_left' (Word.length_bytes _), List.take_left]

/-- Of a text behind short ones as many bytes are read as its word says. -/
theorem field_text (htypes : row.map Value.dataType = l.schema.map Attribute.dataType)
    (ht : t.bytes = row.flatMap Value.encode) (hrow : row[i]? = some (.text bytes))
    (hbefore : ShortTexts (row.take i)) :
    l.field t i = .ok (.text (bytes.take (bytes.length % 2 ^ 32))) := by
  obtain ⟨a, ha, htype⟩ : ∃ a, l.schema[i]? = some a ∧ a.dataType = .text := by
    have hget := congrArg (·[i]?) htypes
    simp only [List.getElem?_map, hrow, Option.map_some] at hget
    exact Option.map_eq_some_iff.1 hget.symm
  have hsplit := bytes_eq_of_getElem? hrow ht
  have hskip : skip t.bytes (l.schema.take i) 0 =
      .ok ((row.take i).flatMap Value.encode).length := by
    have htake : (row.take i).map Value.dataType = (l.schema.take i).map Attribute.dataType := by
      rw [List.map_take, List.map_take, htypes]
    have hfields := decodeFields_encode [] (Value.encode (.text bytes) ++
      (row.drop (i + 1)).flatMap Value.encode) htake (shortTexts_iff.1 hbefore)
    rw [List.nil_append, ← hsplit, List.length_nil, Nat.zero_add] at hfields
    exact skip_eq_of_decodeFields hfields
  have hdecode := Value.decode_text ((row.take i).flatMap Value.encode) bytes
    ((row.drop (i + 1)).flatMap Value.encode)
  rw [← hsplit] at hdecode
  obtain ⟨w, hw, -⟩ := Value.width_of_decode hdecode
  simp only [field, fieldSpan, ha, htype, hskip, hw, hdecode, ok_bind, pure_eq_ok]

theorem field_text_of_encode (h : l.encode row = .ok t) (hrow : row[i]? = some (.text bytes))
    (hbefore : ShortTexts (row.take i)) :
    l.field t i = .ok (.text (bytes.take (bytes.length % 2 ^ 32))) := by
  obtain ⟨-, htypes, ht⟩ := eq_of_encode h
  exact field_text htypes ht hrow hbefore

/-- A row is read back if the words before its texts can say how long they are. -/
theorem decode_iff_of_encode (h : l.encode row = .ok t) :
    l.decode t = .ok row ↔ ShortTexts row :=
  ⟨fun hdecode => shortTexts_iff.2 (decode_eq_ok_iff.1 hdecode).2.1, decode_of_encode h⟩

/-- **Before each text stand the low bits of its length**, and a row is read back if they are all
of it in every text. -/
theorem words_of_encode (h : l.encode row = .ok t) :
    (∀ i bytes, row[i]? = some (.text bytes) →
      Value.readWord t.bytes (rowLength (row.take i)) = .ok (bytes.length % 2 ^ 32) ∧
        (t.bytes.drop (rowLength (row.take i) + 4)).take bytes.length = bytes) ∧
    (l.decode t = .ok row ↔ ∀ bytes, .text bytes ∈ row → bytes.length < 2 ^ 32) :=
  ⟨fun _ _ hrow => ⟨readWord_of_encode h hrow, take_drop_of_encode h hrow⟩, decode_iff_of_encode h⟩

/-- A text of one byte behind a real has a word that says so. -/
theorem words_of_encode_short : ∃ t,
    shortLayout.encode [.real (.zero false), .text [104]] = .ok t ∧
      Value.readWord t.bytes 4 = .ok 1 ∧
      shortLayout.decode t = .ok [.real (.zero false), .text [104]] := by
  have h : shortLayout.encode [.real (.zero false), .text [104]] =
      .ok ⟨[0, 0, 0, 0, 1, 0, 0, 0, 104]⟩ := by decide
  obtain ⟨hwords, hdecode⟩ := words_of_encode h
  refine ⟨_, h, (hwords 1 [104] rfl).1, hdecode.2 fun bytes hmem => ?_⟩
  have hbytes : bytes = [104] := by simpa using hmem
  rw [hbytes]
  decide

/-- Room for one text of 2 ^ 32 bytes. -/
def longLayout : Layout := ⟨[.text "s" (2 ^ 32)], 4 + 2 ^ 32⟩

/-- A text is accepted if there is room for it. -/
theorem encode_text {declared limit : Nat} (hdeclared : bytes.length ≤ declared)
    (hlimit : 4 + bytes.length ≤ limit) (name : String) :
    encode ⟨[.text name declared], limit⟩ [.text bytes] = .ok ⟨Value.encode (.text bytes)⟩ := by
  have hadmits : Attribute.Admits (.text name declared) (.text bytes) := ⟨rfl, by
    rintro _ ⟨⟩
    exact hdeclared⟩
  exact encode_eq_ok_iff.2 ⟨.cons hadmits .nil, hlimit, by rw [List.flatMap_singleton]⟩

theorem encode_longLayout (hroom : bytes.length ≤ 2 ^ 32) :
    longLayout.encode [.text bytes] = .ok ⟨Value.encode (.text bytes)⟩ :=
  encode_text hroom (Nat.add_le_add_left hroom 4) "s"

theorem shortTexts_text (hshort : bytes.length < 2 ^ 32) : ShortTexts [.text bytes] :=
  fun _ h => Value.text.inj (List.mem_singleton.1 h) ▸ hshort

/-- A shorter one is also read back. -/
theorem isRow_text {declared : Nat} (hdeclared : bytes.length ≤ declared)
    (hshort : bytes.length < 2 ^ 32) (name : String) :
    Tuple.IsRow ⟨Value.encode (.text bytes)⟩ [.text name declared] := by
  have hencode := encode_text hdeclared (Nat.le_refl _) name
  have hdecode := decode_of_encode hencode (shortTexts_text hshort)
  exact ⟨[.text bytes], hdecode⟩

/-- A text of 2 ^ 32 bytes is accepted, and its word says that it has none. -/
theorem decode_long (hlength : bytes.length = 2 ^ 32) :
    ∃ t, longLayout.encode [.text bytes] = .ok t ∧ Value.readWord t.bytes 0 = .ok 0 ∧
      longLayout.decode t ≠ .ok [.text bytes] := by
  have hencode := encode_longLayout (Nat.le_of_eq hlength)
  refine ⟨_, hencode, ?_, fun hdecode => ?_⟩
  · have hword := readWord_of_encode (i := 0) hencode rfl
    rwa [hlength, Nat.mod_self] at hword
  · have hlt := (decode_iff_of_encode hencode).1 hdecode bytes List.mem_cons_self
    exact Nat.lt_irrefl _ (hlength ▸ hlt)

/-- So a text of 2 ^ 32 bytes is read as the one that has none. -/
theorem field_long (hlength : bytes.length = 2 ^ 32) (name : String) (declared limit : Nat) :
    field ⟨[.text name declared], limit⟩ ⟨Value.encode (.text bytes)⟩ 0 = .ok (.text []) := by
  have htypes : [Value.text bytes].map Value.dataType =
      [Attribute.text name declared].map Attribute.dataType := rfl
  have hbytes : Value.encode (.text bytes) = [Value.text bytes].flatMap Value.encode :=
    (List.flatMap_singleton _ _).symm
  have hrow : [Value.text bytes][0]? = some (.text bytes) := rfl
  have hfield := field_text (l := ⟨[.text name declared], limit⟩)
    (t := ⟨Value.encode (.text bytes)⟩) htypes hbytes hrow (by simp [ShortTexts])
  rwa [hlength, Nat.mod_self, List.take_zero] at hfield

/-- Not every row that is accepted is read back. -/
theorem encode_not_always_decodes :
    ¬∀ (l : Layout) (row : List Value) (t : Tuple), l.encode row = .ok t →
      l.decode t = .ok row := by
  intro hall
  obtain ⟨t, hencode, -, hdecode⟩ :=
    decode_long (List.length_replicate : (List.replicate (2 ^ 32) (0 : UInt8)).length = 2 ^ 32)
  exact hdecode (hall _ _ t hencode)

end Layout

end QueryEngine
