import QueryEngine.Proofs.Tuple.WellFormed

/-!
# Rows and tuples

A tuple leaves no choice of how a row is written: whatever bytes decode to a row are the encoding of
that row. With `Layout.decode_of_encode`, encoding and decoding are inverse to each other between
the rows that a layout accepts and the tuples that keep to its limits.

* `Value.drop_of_decode`: a value that was read is written as the bytes that it was read from.
* `Layout.bytes_of_decode`: so is a row.
* `Layout.encode_eq_ok_iff`: which rows are accepted, and what is made of them.
* `Layout.bijective`: the two directions together.
-/

namespace QueryEngine

namespace Value

variable {t : DataType} {bytes : List UInt8} {offset next word : Nat} {v : Value}

/-! ## Single values -/

/-- The bytes from an offset on begin with the word that is read there. -/
theorem drop_of_readWord (h : readWord bytes offset = .ok word) :
    bytes.drop offset = Word.bytes word ++ bytes.drop (offset + 4) ∧ word < 2 ^ 32 := by
  unfold readWord at h
  split at h
  · rename_i n hread
    obtain rfl := Except.ok.inj h
    unfold Word.read? at hread
    split at hread
    · rename_i a b c d rest hdrop
      obtain rfl := Option.some.inj hread
      refine ⟨?_, Word.ofBytes_lt a b c d⟩
      rw [Word.bytes_ofBytes, ← List.drop_drop, hdrop]
      rfl
    · cases hread
  · cases h

/-- The bytes from an offset on begin with the encoding of the value that is read there. -/
theorem drop_of_decode (h : decode t bytes offset = .ok (v, next)) :
    bytes.drop offset = v.encode ++ bytes.drop next := by
  unfold decode at h
  split at h
  · cases h
  · rename_i word hread
    obtain ⟨hdrop, hword⟩ := drop_of_readWord hread
    rw [hdrop]
    cases t with
    | integer =>
      obtain ⟨rfl, rfl⟩ := Prod.mk.inj (Except.ok.inj h)
      have hbits : (UInt32.ofNat word).toInt32.toUInt32.toNat = word := by
        rw [UInt32.toUInt32_toInt32, UInt32.toNat_ofNat', Nat.mod_eq_of_lt hword]
      rw [encode, hbits]
    | real =>
      obtain ⟨rfl, rfl⟩ := Prod.mk.inj (Except.ok.inj h)
      rw [encode, Binary.toBits_ofBits hword]
    | text =>
      simp only at h
      split at h
      · rename_i hstop
        obtain ⟨rfl, rfl⟩ := Prod.mk.inj (Except.ok.inj h)
        have hlength : ((bytes.drop (offset + 4)).take word).length = word := by
          rw [List.length_take, List.length_drop]
          omega
        rw [encode, hlength, List.append_assoc, ← List.drop_drop (i := word), List.take_append_drop]
      · cases h

end Value

namespace Layout

variable {l : Layout} {bytes : List UInt8} {schema : Schema} {offset stop : Nat}
  {values row row' : List Value} {t t' : Tuple}

/-! ## Rows that were read -/

theorem drop_of_decodeFields (h : decodeFields bytes schema offset = .ok (values, stop)) :
    bytes.drop offset = values.flatMap Value.encode ++ bytes.drop stop := by
  induction schema generalizing offset values stop with
  | nil =>
    obtain ⟨rfl, rfl⟩ := Prod.mk.inj (Except.ok.inj h)
    rfl
  | cons a schema ih =>
    obtain ⟨v, next, rest, hv, hrest, rfl⟩ := decodeFields_cons_eq_ok_iff.1 h
    rw [Value.drop_of_decode hv, ih hrest, List.flatMap_cons, List.append_assoc]

theorem dataTypes_of_decodeFields (h : decodeFields bytes schema offset = .ok (values, stop)) :
    List.Forall₂ (fun a v => Value.dataType v = Attribute.dataType a) schema values := by
  induction schema generalizing offset values stop with
  | nil =>
    obtain ⟨rfl, -⟩ := Prod.mk.inj (Except.ok.inj h)
    exact .nil
  | cons a schema ih =>
    obtain ⟨v, next, rest, hv, hrest, rfl⟩ := decodeFields_cons_eq_ok_iff.1 h
    exact .cons (Value.dataType_of_decode hv) (ih hrest)

/-- A tuple is the encoding of the row that it decodes to. -/
theorem bytes_of_decode (h : l.decode t = .ok row) : t.bytes = row.flatMap Value.encode := by
  have hdrop := drop_of_decodeFields (decodeFields_of_decode h)
  rwa [List.drop_zero, Tuple.length, List.drop_length, List.append_nil] at hdrop

theorem eq_of_decode (h : l.decode t = .ok row) (h' : l.decode t' = .ok row) : t = t' :=
  Tuple.ext ((bytes_of_decode h).trans (bytes_of_decode h').symm)

/-- A row that was read is one that the schema admits, if its texts are not too long for it. -/
theorem admits_of_decode (h : l.decode t = .ok row)
    (htexts : ∀ a bytes, (a, .text bytes) ∈ l.schema.zip row → bytes.length ≤ a.length) :
    List.Forall₂ Attribute.Admits l.schema row := by
  have htypes := dataTypes_of_decodeFields (decodeFields_of_decode h)
  rw [List.forall₂_iff_zip] at htypes ⊢
  refine ⟨htypes.1, fun {a v} hmem => ⟨htypes.2 hmem, ?_⟩⟩
  rintro bytes rfl
  exact htexts a bytes hmem

/-! ## Rows that are accepted -/

/-- A row is accepted if the schema admits it and it is not too long, and then its values are
written one after the other. -/
theorem encode_eq_ok_iff : l.encode row = .ok t ↔
    List.Forall₂ Attribute.Admits l.schema row ∧ rowLength row ≤ l.maxTupleSize ∧
      t.bytes = row.flatMap Value.encode := by
  constructor
  · intro h
    obtain ⟨hlength, -, hbytes⟩ := eq_of_encode h
    have hsize := length_le_of_encode h
    simp only [encode, throw_eq_error, error_bind, refuse_eq_ok_iff, bind_eq_ok_iff] at h
    obtain ⟨-, _, -, _, hfields, -⟩ := h
    refine ⟨admits_of_encodeFields hlength hfields, ?_, hbytes⟩
    rwa [rowLength_eq, ← hbytes]
  · rintro ⟨hadmits, hsize, hbytes⟩
    have harity : ¬row.length ≠ l.schema.length := not_not.2 hadmits.length_eq.symm
    rw [encode, if_neg harity, checkSize_eq_ok_iff.2 hsize, encodeFields_eq hadmits, ← hbytes]
    rfl

theorem exists_encode_iff : (∃ t, l.encode row = .ok t) ↔
    row.length = l.schema.length ∧ (row.flatMap Value.encode).length ≤ l.maxTupleSize ∧
      ∀ a v, (a, v) ∈ l.schema.zip row → a.Admits v := by
  rw [← rowLength_eq]
  constructor
  · rintro ⟨t, h⟩
    obtain ⟨hadmits, hsize, -⟩ := encode_eq_ok_iff.1 h
    obtain ⟨hlength, hadmits⟩ := List.forall₂_iff_zip.1 hadmits
    exact ⟨hlength.symm, hsize, fun a v hmem => hadmits hmem⟩
  · rintro ⟨hlength, hsize, hadmits⟩
    have hall : List.Forall₂ Attribute.Admits l.schema row :=
      List.forall₂_iff_zip.2 ⟨hlength.symm, fun hmem => hadmits _ _ hmem⟩
    exact ⟨⟨row.flatMap Value.encode⟩, encode_eq_ok_iff.2 ⟨hall, hsize, rfl⟩⟩

/-- A tuple that keeps to the limits is what its row is encoded as. -/
theorem encode_of_decode (h : l.decode t = .ok row) (hsize : t.length ≤ l.maxTupleSize)
    (htexts : ∀ a bytes, (a, .text bytes) ∈ l.schema.zip row → bytes.length ≤ a.length) :
    l.encode row = .ok t := by
  have hbytes := bytes_of_decode h
  refine encode_eq_ok_iff.2 ⟨admits_of_decode h htexts, ?_, hbytes⟩
  rwa [rowLength_eq, ← hbytes]

/-! ## Both directions -/

/-- The rows that a layout accepts and the tuples that keep to its limits go by pairs. -/
structure Bijective (l : Layout) : Prop where
  /-- A row is accepted if there is one value for each attribute, which can hold it, and they are
  not too long together. -/
  accepts : ∀ row, (∃ t, l.encode row = .ok t) ↔
    row.length = l.schema.length ∧ (row.flatMap Value.encode).length ≤ l.maxTupleSize ∧
      ∀ a v, (a, v) ∈ l.schema.zip row → a.Admits v
  decode_encode : ∀ row t, l.encode row = .ok t → l.decode t = .ok row
  encode_decode : ∀ t row, l.decode t = .ok row → t.length ≤ l.maxTupleSize →
    (∀ a bytes, (a, .text bytes) ∈ l.schema.zip row → bytes.length ≤ a.length) →
    l.encode row = .ok t
  encode_inj : ∀ row row' t, l.encode row = .ok t → l.encode row' = .ok t → row = row'
  decode_inj : ∀ t t' row, l.decode t = .ok row → l.decode t' = .ok row → t = t'

/-- **Encoding is a bijection** between the rows that a layout accepts and the tuples that keep to
its limits, with decoding as its inverse, if the limit is small enough for the words before
texts. -/
theorem bijective (l : Layout) (hlimit : l.maxTupleSize < 2 ^ 32) : l.Bijective := by
  have hdecode : ∀ row t, l.encode row = .ok t → l.decode t = .ok row := fun row t h =>
    decode_of_encode h
      (shortTexts_of_encode h (Nat.lt_of_le_of_lt (length_le_of_encode h) hlimit))
  constructor
  case accepts => exact fun row => exists_encode_iff
  case decode_encode => exact hdecode
  case encode_decode => exact fun t row => encode_of_decode
  case encode_inj =>
    intro row row' t h h'
    exact Except.ok.inj ((hdecode row t h).symm.trans (hdecode row' t h'))
  case decode_inj => exact fun t t' row => eq_of_decode

/-- A real and a text of at most two bytes. -/
def shortLayout : Layout := ⟨[.real "x", .text "s" 2], 64⟩

/-- A real that is not a number is read back with its payload. -/
theorem bijective_payload : shortLayout.maxTupleSize < 2 ^ 32 ∧
    shortLayout.decode ⟨[5, 0, 192, 255, 1, 0, 0, 0, 104]⟩ =
      .ok [.real (.ofBits 0xffc00005), .text [104]] :=
  have hlimit : shortLayout.maxTupleSize < 2 ^ 32 := by decide
  ⟨hlimit, (bijective shortLayout hlimit).decode_encode _ _ (by decide)⟩

end Layout

end QueryEngine
