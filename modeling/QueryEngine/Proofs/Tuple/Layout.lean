import QueryEngine.Proofs.Outcome
import QueryEngine.Tuple.Layout

/-!
# Reading what was encoded

A tuple has no header, so whatever reads it walks over its fields. Two facts carry everything that
is read out of tuples.

* `Layout.field_of_decode`: each field read by itself is that of the decoded row.
* `Layout.decode_of_encode`: a row decodes to what was encoded, as long as every text in it is
  shorter than 2 ^ 32 bytes (`ShortTexts`). The word before a text holds no more of its length.

`Tuple.IsRow` says that a tuple is a row of a schema at all.
-/

namespace QueryEngine

/-- The tuple is a row of the schema. -/
def Tuple.IsRow (t : Tuple) (schema : Schema) : Prop :=
  ∃ row, ({ schema } : Layout).decode t = .ok row

/-- The lengths of all texts in the row fit the words that are written before them. -/
def ShortTexts (row : List Value) : Prop := ∀ bytes, .text bytes ∈ row → bytes.length < 2 ^ 32

namespace Value

variable {t : DataType} {bytes : List UInt8} {offset next : Nat} {v : Value}

/-! ## Single values -/

theorem dataType_of_decode (h : decode t bytes offset = .ok (v, next)) : v.dataType = t := by
  unfold decode at h
  split at h
  · simp at h
  · split at h
    · simp only [Except.ok.injEq, Prod.mk.injEq] at h
      exact h.1 ▸ rfl
    · simp only [Except.ok.injEq, Prod.mk.injEq] at h
      exact h.1 ▸ rfl
    · simp only at h
      split at h
      · simp only [Except.ok.injEq, Prod.mk.injEq] at h
        exact h.1 ▸ rfl
      · simp at h

theorem le_length_of_readWord {word : Nat} (h : readWord bytes offset = .ok word) :
    offset + 4 ≤ bytes.length := by
  unfold readWord at h
  split at h
  · rename_i hr
    unfold Word.read? at hr
    split at hr
    · rename_i hd
      have := congrArg List.length hd
      simp only [List.length_drop, List.length_cons] at this
      omega
    · simp at hr
  · simp at h

/-- A value ends where its width says. -/
theorem width_of_decode (h : decode t bytes offset = .ok (v, next)) :
    ∃ w, width t bytes offset = .ok w ∧ next = offset + w := by
  unfold decode at h
  split at h
  · simp at h
  · rename_i word hr
    have hle := le_length_of_readWord hr
    split at h
    · simp only [Except.ok.injEq, Prod.mk.injEq] at h
      exact ⟨4, by simp [width, DataType.fixedWidth?, hle], h.2.symm⟩
    · simp only [Except.ok.injEq, Prod.mk.injEq] at h
      exact ⟨4, by simp [width, DataType.fixedWidth?, hle], h.2.symm⟩
    · simp only at h
      split at h
      · rename_i hstop
        simp only [Except.ok.injEq, Prod.mk.injEq] at h
        exact ⟨4 + word, by simp [width, DataType.fixedWidth?, hr, hstop], by omega⟩
      · simp at h

theorem readWord_append (pre rest : List UInt8) (n : Nat) :
    readWord (pre ++ (Word.bytes n ++ rest)) pre.length = .ok (n % 2 ^ 32) := by
  simp [readWord]

/-- A value is read back where it was written, whatever stands around it. -/
theorem decode_encode (pre post : List UInt8) (h : v.encodedLength < 4 + 2 ^ 32) :
    decode v.dataType (pre ++ (v.encode ++ post)) pre.length =
      .ok (v, pre.length + v.encodedLength) := by
  cases v with
  | integer n =>
    have hn : n.toUInt32.toNat % 2 ^ 32 = n.toUInt32.toNat := Nat.mod_eq_of_lt n.toUInt32.toNat_lt
    simp only [decode, encode, dataType, readWord_append, hn, encodedLength, UInt32.ofNat_toNat]
    rfl
  | real x =>
    have hx : x.toBits % 2 ^ 32 = x.toBits := Nat.mod_eq_of_lt x.toBits_lt
    simp only [decode, encode, dataType, readWord_append, hx, encodedLength, Binary.ofBits_toBits]
  | text s =>
    have hs : s.length % 2 ^ 32 = s.length :=
      Nat.mod_eq_of_lt (by simp only [encodedLength] at h; omega)
    have hdrop : (pre ++ (Word.bytes s.length ++ s ++ post)).drop (pre.length + 4) = s ++ post := by
      rw [← List.drop_drop, List.drop_left, List.append_assoc]
      rfl
    have hword :
        readWord (pre ++ (Word.bytes s.length ++ s ++ post)) pre.length = .ok s.length := by
      rw [List.append_assoc, readWord_append, hs]
    have hlen : pre.length + 4 + s.length ≤ (pre ++ (Word.bytes s.length ++ s ++ post)).length := by
      simp only [List.length_append, Word.length_bytes]
      omega
    simp only [decode, encode, dataType, hword, if_pos hlen, hdrop, List.take_left, encodedLength]
    rw [Nat.add_assoc]

end Value

namespace Layout

variable {l : Layout} {bytes : List UInt8} {schema : Schema} {offset stop : Nat}
  {values : List Value} {t : Tuple} {row : List Value}

/-! ## Rows -/

theorem decodeFields_cons_eq_ok_iff {a : Attribute} :
    decodeFields bytes (a :: schema) offset = .ok (values, stop) ↔
      ∃ v next rest, Value.decode a.dataType bytes offset = .ok (v, next) ∧
        decodeFields bytes schema next = .ok (rest, stop) ∧ values = v :: rest := by
  simp only [decodeFields, bind_eq_ok_iff, Prod.exists, pure_eq_ok, Except.ok.injEq,
    Prod.mk.injEq]
  constructor
  · rintro ⟨v, next, hv, rest, stop, hr, rfl, rfl⟩
    exact ⟨v, next, rest, hv, hr, rfl⟩
  · rintro ⟨v, next, rest, hv, hr, rfl⟩
    exact ⟨v, next, hv, rest, stop, hr, rfl, rfl⟩

theorem length_of_decodeFields (h : decodeFields bytes schema offset = .ok (values, stop)) :
    values.length = schema.length := by
  induction schema generalizing offset values stop with
  | nil =>
    simp only [decodeFields, Except.ok.injEq, Prod.mk.injEq] at h
    rw [← h.1, List.length_nil, List.length_nil]
  | cons a schema ih =>
    obtain ⟨v, next, rest, -, hr, rfl⟩ := decodeFields_cons_eq_ok_iff.1 h
    rw [List.length_cons, List.length_cons, ih hr]

/-- The walk to a field of a decoded row ends where the field was decoded. -/
theorem skip_of_decodeFields (h : decodeFields bytes schema offset = .ok (values, stop))
    {i : Nat} {a : Attribute} {v : Value} (ha : schema[i]? = some a) (hv : values[i]? = some v) :
    ∃ start next, skip bytes (schema.take i) offset = .ok start ∧
      Value.decode a.dataType bytes start = .ok (v, next) := by
  induction schema generalizing offset values stop i with
  | nil => simp at ha
  | cons b schema ih =>
    obtain ⟨w, next, rest, hw, hr, rfl⟩ := decodeFields_cons_eq_ok_iff.1 h
    cases i with
    | zero =>
      simp only [List.getElem?_cons_zero, Option.some.injEq] at ha hv
      exact ⟨offset, next, rfl, by rw [← ha, ← hv, hw]⟩
    | succ i =>
      obtain ⟨start, stop, hskip, hdec⟩ := ih hr ha hv
      obtain ⟨width, hwidth, rfl⟩ := Value.width_of_decode hw
      exact ⟨start, stop, by rw [List.take_succ_cons, skip, hwidth, ok_bind, hskip], hdec⟩

theorem decodeFields_of_decode (h : l.decode t = .ok row) :
    decodeFields t.bytes l.schema 0 = .ok (row, t.length) := by
  obtain ⟨⟨values, stop⟩, hd, h⟩ := bind_eq_ok_iff.1 h
  simp only [throw_eq_error, error_bind, pure_eq_ok, refuse_eq_ok_iff, ne_eq, Decidable.not_not,
    Except.ok.injEq] at h
  rw [hd, ← h.1, ← h.2]

/-- A field read by itself is that of the decoded row. -/
theorem field_of_decode (h : l.decode t = .ok row) {i : Nat} {a : Attribute}
    (ha : l.schema[i]? = some a) :
    ∃ v, row[i]? = some v ∧ l.field t i = .ok v ∧ v.dataType = a.dataType := by
  have hd := decodeFields_of_decode h
  have hlen := length_of_decodeFields hd
  have hi : i < row.length := hlen ▸ (List.getElem?_eq_some_iff.1 ha).1
  obtain ⟨start, next, hskip, hdec⟩ :=
    skip_of_decodeFields hd ha (List.getElem?_eq_getElem hi)
  obtain ⟨w, hw, -⟩ := Value.width_of_decode hdec
  refine ⟨row[i], List.getElem?_eq_getElem hi, ?_, Value.dataType_of_decode hdec⟩
  simp [field, fieldSpan, ha, hskip, hw, hdec]

theorem skip_qualified (bytes : List UInt8) (schema : Schema) (relation : String) (offset : Nat) :
    skip bytes (schema.qualified relation) offset = skip bytes schema offset := by
  induction schema generalizing offset with
  | nil => rfl
  | cons a schema ih =>
    rw [Schema.qualified] at ih
    simp only [Schema.qualified, List.map_cons, skip, ih]
    rfl

/-- Reading a field takes the types of the attributes and not their names. -/
theorem field_qualified (schema : Schema) (relation : String) (limit : Nat) (t : Tuple) (i : Nat) :
    field { schema := schema.qualified relation } t i = field ⟨schema, limit⟩ t i := by
  have hget : (schema.qualified relation)[i]? = schema[i]?.map (·.qualified relation) :=
    List.getElem?_map
  have htake : (schema.qualified relation).take i = Schema.qualified (schema.take i) relation :=
    (List.map_take).symm
  have hlength : (schema.qualified relation).length = schema.length := List.length_map _
  simp only [field, fieldSpan, hget, htake, hlength, skip_qualified]
  cases schema[i]? <;> rfl

theorem decodeFields_qualified (bytes : List UInt8) (schema : Schema) (relation : String)
    (offset : Nat) :
    decodeFields bytes (schema.qualified relation) offset = decodeFields bytes schema offset := by
  induction schema generalizing offset with
  | nil => rfl
  | cons a schema ih =>
    rw [Schema.qualified] at ih
    simp only [Schema.qualified, List.map_cons, decodeFields, ih]
    rfl

theorem isRow_qualified (h : l.decode t = .ok row) (relation : String) :
    t.IsRow (l.schema.qualified relation) := by
  refine ⟨row, ?_⟩
  rw [decode, decodeFields_qualified]
  exact h

/-! ## Encoded rows -/

theorem dataType_of_check {a : Attribute} {v : Value} (h : a.check v = .ok ()) :
    v.dataType = a.dataType := by
  obtain ⟨u, ht, -⟩ := bind_eq_ok_iff.1 h
  unfold Value.expectType at ht
  split at ht
  · assumption
  · simp at ht

/-- Fields that were accepted are written one after the other. -/
theorem eq_of_encodeFields {values : List Value} (hlen : values.length = schema.length)
    (h : encodeFields schema values = .ok bytes) :
    values.map Value.dataType = schema.map Attribute.dataType ∧
      bytes = values.flatMap Value.encode := by
  induction schema generalizing values bytes with
  | nil =>
    obtain rfl := List.length_eq_zero_iff.1 hlen
    simp only [encodeFields, Except.ok.injEq] at h
    exact ⟨rfl, h.symm⟩
  | cons a schema ih =>
    cases values with
    | nil => simp at hlen
    | cons v values =>
      simp only [encodeFields, bind_eq_ok_iff, pure_eq_ok, Except.ok.injEq] at h
      obtain ⟨u, hc, rest, hr, rfl⟩ := h
      obtain ⟨ht, rfl⟩ := ih (Nat.add_right_cancel hlen) hr
      exact ⟨by rw [List.map_cons, List.map_cons, dataType_of_check hc, ht], rfl⟩

/-- What `encode` accepted, and what it made of it. -/
theorem eq_of_encode (h : l.encode values = .ok t) :
    values.length = l.schema.length ∧ values.map Value.dataType = l.schema.map Attribute.dataType ∧
      t.bytes = values.flatMap Value.encode := by
  simp only [encode, throw_eq_error, error_bind, refuse_eq_ok_iff, ne_eq, Decidable.not_not,
    bind_eq_ok_iff, pure_eq_ok, Except.ok.injEq] at h
  obtain ⟨hlen, -, -, bytes, hf, rfl⟩ := h
  obtain ⟨ht, hb⟩ := eq_of_encodeFields hlen hf
  exact ⟨hlen, ht, hb⟩

theorem rowLength_eq (values : List Value) :
    rowLength values = (values.flatMap Value.encode).length := by
  induction values with
  | nil => rfl
  | cons v values ih =>
    rw [rowLength, ih, List.flatMap_cons, List.length_append, Value.length_encode]

theorem checkSize_eq_ok_iff {size : Nat} : l.checkSize size = .ok () ↔ size ≤ l.maxTupleSize := by
  unfold checkSize
  split
  · exact ⟨fun h => (by cases h), fun h => by omega⟩
  · exact ⟨fun _ => by omega, fun _ => rfl⟩

theorem length_le_of_encode (h : l.encode values = .ok t) : t.length ≤ l.maxTupleSize := by
  obtain ⟨-, -, hb⟩ := eq_of_encode h
  simp only [encode, throw_eq_error, error_bind, refuse_eq_ok_iff, bind_eq_ok_iff] at h
  obtain ⟨-, _, hsize, -⟩ := h
  have hlength : t.length = rowLength values := by rw [rowLength_eq, Tuple.length, hb]
  exact hlength ▸ checkSize_eq_ok_iff.1 hsize

/-- Without its first field a row can still be encoded. -/
theorem exists_encode_tail {a : Attribute} {limit : Nat} {v : Value}
    (h : encode ⟨a :: schema, limit⟩ (v :: values) = .ok t) :
    ∃ t', encode ⟨schema, limit⟩ values = .ok t' := by
  simp only [encode, throw_eq_error, error_bind, refuse_eq_ok_iff, ne_eq, Decidable.not_not,
    bind_eq_ok_iff, encodeFields, pure_eq_ok, Except.ok.injEq, List.length_cons,
    Nat.add_right_cancel_iff] at h ⊢
  obtain ⟨hlen, _, hsize, _, ⟨_, -, bytes, hfields, -⟩, -⟩ := h
  have hle : v.encodedLength + rowLength values ≤ limit := checkSize_eq_ok_iff.1 hsize
  exact ⟨_, hlen, (), checkSize_eq_ok_iff.2 (Nat.le_trans (Nat.le_add_left _ _) hle), bytes,
    hfields, rfl⟩

theorem encodedLength_le_of_mem {v : Value} (hv : v ∈ values) :
    v.encodedLength ≤ (values.flatMap Value.encode).length := by
  rw [← Value.length_encode]
  exact (List.sublist_flatten_of_mem (List.mem_map_of_mem hv)).length_le

theorem decodeFields_encode (pre post : List UInt8)
    (ht : values.map Value.dataType = schema.map Attribute.dataType)
    (hshort : ∀ v ∈ values, v.encodedLength < 4 + 2 ^ 32) :
    decodeFields (pre ++ (values.flatMap Value.encode ++ post)) schema pre.length =
      .ok (values, pre.length + (values.flatMap Value.encode).length) := by
  induction values generalizing schema pre with
  | nil =>
    obtain rfl := List.map_eq_nil_iff.1 ht.symm
    rfl
  | cons v values ih =>
    cases schema with
    | nil => simp at ht
    | cons a schema =>
      simp only [List.map_cons, List.cons.injEq] at ht
      have hv := Value.decode_encode pre (values.flatMap Value.encode ++ post)
        (hshort v List.mem_cons_self)
      have hrest := ih (pre ++ v.encode) ht.2 fun w hw => hshort w (List.mem_cons_of_mem v hw)
      rw [List.length_append, Value.length_encode] at hrest
      simp only [List.append_assoc] at hrest
      simp only [List.flatMap_cons, List.append_assoc, decodeFields, ← ht.1, hv, hrest, ok_bind,
        pure_eq_ok, List.length_append, Value.length_encode, Nat.add_assoc]

theorem shortTexts_iff :
    ShortTexts values ↔ ∀ v ∈ values, v.encodedLength < 4 + 2 ^ 32 := by
  constructor
  · intro hshort v hv
    cases v with
    | integer n | real x => simp [Value.encodedLength]
    | text bytes =>
      have hlt := hshort bytes hv
      rw [Value.encodedLength]
      omega
  · intro hshort bytes hmem
    have hlt := hshort _ hmem
    rw [Value.encodedLength] at hlt
    omega

/-- A row of fewer than 2 ^ 32 bytes has no room for a longer text. -/
theorem shortTexts_of_encode (h : l.encode values = .ok t) (hlt : t.length < 2 ^ 32) :
    ShortTexts values := by
  obtain ⟨-, -, hb⟩ := eq_of_encode h
  refine shortTexts_iff.2 fun v hv => ?_
  have hle := encodedLength_le_of_mem hv
  rw [Tuple.length, hb] at hlt
  omega

/-- A row of short texts decodes to what was encoded. -/
theorem decode_of_encode (h : l.encode values = .ok t) (hshort : ShortTexts values) :
    l.decode t = .ok values := by
  obtain ⟨-, ht, hb⟩ := eq_of_encode h
  have hd := decodeFields_encode [] [] ht (shortTexts_iff.1 hshort)
  simp only [List.nil_append, List.append_nil, List.length_nil, Nat.zero_add, ← hb] at hd
  simp [decode, hd, Tuple.length]

end Layout

end QueryEngine
