import Mathlib.Data.List.Forall2
import QueryEngine.Proofs.Attribute
import QueryEngine.Proofs.Tuple.Layout

/-!
# Well-formed tuples

A tuple is well-formed under a schema if it is the encoding of a row that the schema admits: one
value for each attribute, of its type, and no text longer than the attribute says. Whatever makes
tuples out of well-formed ones makes well-formed ones again, under the schema that goes with it.

* `Tuple.Encodes`, `Tuple.WellFormed`: the tuple is the encoding of a row, or of some row.
* `Tuple.Encodes.decode`, `Tuple.WellFormed.exists_field`: reading it fails nowhere.
* `Tuple.WellFormed.joinWithin`, `Tuple.WellFormed.project`, `Layout.meets_encode`: the three ways
  in which operators make tuples. They fail for no reason other than the size of the result.
-/

namespace QueryEngine

namespace Attribute

/-- The attribute can hold the value. -/
structure Admits (a : Attribute) (v : Value) : Prop where
  dataType : v.dataType = a.dataType
  length : ∀ bytes, v = .text bytes → bytes.length ≤ a.length

/-- What an attribute can hold is what is accepted for it. -/
theorem check_eq_ok_iff {a : Attribute} {v : Value} : a.check v = .ok () ↔ a.Admits v := by
  unfold check Value.expectType
  by_cases ht : v.dataType = a.dataType
  · rw [if_pos ht, ok_bind]
    cases v with
    | integer n => exact ⟨fun _ => ⟨ht, fun _ h => nomatch h⟩, fun _ => rfl⟩
    | real x => exact ⟨fun _ => ⟨ht, fun _ h => nomatch h⟩, fun _ => rfl⟩
    | text bytes =>
      simp only [refuse_eq_ok_iff, Nat.not_lt, and_true]
      refine ⟨fun h => ⟨ht, ?_⟩, fun h => h.length bytes rfl⟩
      rintro _ ⟨⟩
      exact h
  · rw [if_neg ht, error_bind]
    exact ⟨fun h => (nomatch h), fun h => absurd h.dataType ht⟩

/-- A number is four bytes long, and held if it is of the type. -/
theorem admits_number {a : Attribute} {v : Value} (htype : v.dataType = a.dataType)
    (hnumber : v.dataType ≠ .text) : a.Admits v ∧ v.encodedLength < 4 + 2 ^ 32 := by
  cases v with
  | text bytes => exact absurd rfl hnumber
  | integer n => exact ⟨⟨htype, fun _ h => by cases h⟩, by simp [Value.encodedLength]⟩
  | real x => exact ⟨⟨htype, fun _ h => by cases h⟩, by simp [Value.encodedLength]⟩

theorem admits_qualified {a : Attribute} {v : Value} {relation : String} :
    (a.qualified relation).Admits v ↔ a.Admits v :=
  ⟨fun h => ⟨h.dataType, h.length⟩, fun h => ⟨h.dataType, h.length⟩⟩

end Attribute

/-- The tuple is the encoding of the row, which the schema admits. The word before a text holds the
length of each. -/
structure Tuple.Encodes (t : Tuple) (schema : Schema) (row : List Value) : Prop where
  admits : List.Forall₂ Attribute.Admits schema row
  short : ∀ v ∈ row, v.encodedLength < 4 + 2 ^ 32
  bytes : t.bytes = row.flatMap Value.encode

/-- The tuple is the encoding of a row of the schema. -/
def Tuple.WellFormed (t : Tuple) (schema : Schema) : Prop := ∃ row, t.Encodes schema row

variable {schema schema' : Schema} {row picked : List Value} {s t : Tuple} {l : Layout}

theorem exists_getElem?_of_forall₂ {α β : Type} {r : α → β → Prop} {as : List α} {bs : List β}
    (h : List.Forall₂ r as bs) {i : Nat} {a : α} (ha : as[i]? = some a) :
    ∃ b, bs[i]? = some b ∧ r a b := by
  induction h generalizing i with
  | nil => simp at ha
  | cons hr _ ih =>
    cases i with
    | zero =>
      obtain rfl := Option.some.inj ha
      exact ⟨_, rfl, hr⟩
    | succ i => exact ih ha

namespace Layout

/-! ## Fields as they were written -/

theorem width_encode {v : Value} (pre post : List UInt8) (h : v.encodedLength < 4 + 2 ^ 32) :
    Value.width v.dataType (pre ++ (v.encode ++ post)) pre.length = .ok v.encodedLength := by
  obtain ⟨width, hwidth, hnext⟩ := Value.width_of_decode (Value.decode_encode pre post h)
  rw [hwidth, Nat.add_left_cancel hnext]

theorem fieldBytes_encode (pre post : List UInt8) (ht : row.map Value.dataType =
      schema.map Attribute.dataType) (hshort : ∀ v ∈ row, v.encodedLength < 4 + 2 ^ 32) :
    fieldBytes (pre ++ (row.flatMap Value.encode ++ post)) schema pre.length =
      .ok (row.map Value.encode) := by
  induction row generalizing schema pre with
  | nil =>
    obtain rfl := List.map_eq_nil_iff.1 ht.symm
    rfl
  | cons v row ih =>
    cases schema with
    | nil => simp at ht
    | cons a schema =>
      simp only [List.map_cons, List.cons.injEq] at ht
      have hwidth := width_encode pre (row.flatMap Value.encode ++ post)
        (hshort v List.mem_cons_self)
      have hrest := ih (pre ++ v.encode) ht.2 fun w hw => hshort w (List.mem_cons_of_mem v hw)
      rw [List.length_append, Value.length_encode] at hrest
      simp only [List.append_assoc] at hrest
      have hfield : ((pre ++ (v.encode ++ (row.flatMap Value.encode ++ post))).drop pre.length).take
          v.encodedLength = v.encode := by
        rw [List.drop_left, ← Value.length_encode, List.take_left]
      simp only [List.flatMap_cons, List.append_assoc, fieldBytes, ← ht.1, hwidth, hrest, ok_bind,
        pure_eq_ok, hfield, List.map_cons]

theorem select_encode {positions : List Nat}
    (h : List.Forall₂ (fun i v => row[i]? = some v) positions picked) :
    select (row.map Value.encode) positions = .ok (picked.flatMap Value.encode) := by
  induction h with
  | nil => rfl
  | cons hv _ ih => simp [select, List.getElem?_map, hv, ih]

end Layout

namespace Tuple

namespace Encodes

theorem dataTypes (h : t.Encodes schema row) :
    row.map Value.dataType = schema.map Attribute.dataType := by
  have hadmits := h.admits
  clear h
  induction hadmits with
  | nil => rfl
  | cons ha _ ih => rw [List.map_cons, List.map_cons, ha.dataType, ih]

/-- The row is read back, with nothing after it. -/
theorem decode (h : t.Encodes l.schema row) : l.decode t = .ok row := by
  have hd := Layout.decodeFields_encode [] [] h.dataTypes h.short
  simp only [List.nil_append, List.append_nil, List.length_nil, Nat.zero_add, ← h.bytes] at hd
  simp [Layout.decode, hd, Tuple.length]

theorem exists_field (h : t.Encodes l.schema row) {i : Nat} {a : Attribute}
    (ha : l.schema[i]? = some a) :
    ∃ v, l.field t i = .ok v ∧ a.Admits v ∧ v.encodedLength < 4 + 2 ^ 32 := by
  obtain ⟨v, hv, hfield, -⟩ := Layout.field_of_decode h.decode ha
  obtain ⟨v', hv', hadmits⟩ := exists_getElem?_of_forall₂ h.admits ha
  obtain rfl := Option.some.inj (hv.symm.trans hv')
  exact ⟨v, hfield, hadmits, h.short v (List.mem_of_getElem? hv)⟩

theorem append (hs : s.Encodes schema row) (ht : t.Encodes schema' picked) :
    (s ++ t).Encodes (schema ++ schema') (row ++ picked) where
  admits := List.rel_append hs.admits ht.admits
  short v hv := (List.mem_append.1 hv).elim (hs.short v) (ht.short v)
  bytes := by rw [bytes_append, hs.bytes, ht.bytes, List.flatMap_append]

theorem qualified (h : t.Encodes schema row) (relation : String) :
    t.Encodes (schema.qualified relation) row where
  admits := by
    rw [Schema.qualified, List.forall₂_map_left_iff]
    exact h.admits.imp fun _ _ => Attribute.admits_qualified.2
  short := h.short
  bytes := h.bytes

/-- The row of the fields at some positions. -/
theorem exists_picked (h : t.Encodes schema row) {positions : List Nat}
    (hfound : List.Forall₂ (fun i a => schema[i]? = some a) positions schema') :
    ∃ picked, List.Forall₂ (fun i v => row[i]? = some v) positions picked ∧
      List.Forall₂ Attribute.Admits schema' picked ∧ ∀ v ∈ picked, v ∈ row := by
  induction hfound with
  | nil => exact ⟨[], .nil, .nil, fun _ h => nomatch h⟩
  | cons ha _ ih =>
    obtain ⟨picked, hpositions, hadmits, hmem⟩ := ih
    obtain ⟨v, hv, hav⟩ := exists_getElem?_of_forall₂ h.admits ha
    exact ⟨v :: picked, .cons hv hpositions, .cons hav hadmits,
      List.forall_mem_cons.2 ⟨List.mem_of_getElem? hv, hmem⟩⟩

end Encodes

namespace WellFormed

variable {may : Error → Prop}

theorem qualified (h : t.WellFormed schema) (relation : String) :
    t.WellFormed (schema.qualified relation) :=
  h.imp fun _ h => h.qualified relation

/-- Reading a field fails nowhere. -/
theorem exists_field (h : t.WellFormed l.schema) {i : Nat} {a : Attribute}
    (ha : l.schema[i]? = some a) :
    ∃ v, l.field t i = .ok v ∧ a.Admits v ∧ v.encodedLength < 4 + 2 ^ 32 :=
  let ⟨_, h⟩ := h
  h.exists_field ha

/-- Two tuples joined are one of both schemas. -/
theorem joinWithin (hmay : ∀ size max, may (.tupleTooLarge size max)) (hs : s.WellFormed schema)
    (ht : t.WellFormed schema') (limit : Nat) :
    Meets (fun u => u.WellFormed (schema ++ schema') ∧ u.length ≤ limit) may
      (s.joinWithin limit t) := by
  obtain ⟨row, hs⟩ := hs
  obtain ⟨picked, ht⟩ := ht
  unfold Tuple.joinWithin
  split
  · exact hmay _ _
  · rename_i hlimit
    exact ⟨⟨_, hs.append ht⟩, Nat.not_lt.1 hlimit⟩

/-- Some of the fields are a tuple of their attributes. -/
theorem project (hmay : ∀ size max, may (.tupleTooLarge size max)) (h : t.WellFormed l.schema)
    {positions : List Nat}
    (hfound : List.Forall₂ (fun i a => l.schema[i]? = some a) positions schema') :
    Meets (fun u => u.WellFormed schema' ∧ u.length ≤ l.maxTupleSize) may
      (l.project t positions) := by
  obtain ⟨row, h⟩ := h
  obtain ⟨picked, hpositions, hadmits, hmem⟩ := h.exists_picked hfound
  have hfields := Layout.fieldBytes_encode [] [] h.dataTypes h.short
  simp only [List.nil_append, List.append_nil, List.length_nil, ← h.bytes] at hfields
  unfold Layout.project Layout.checkSize
  rw [hfields, ok_bind, Layout.select_encode hpositions, ok_bind]
  split
  · exact hmay _ _
  · rename_i hlimit
    exact ⟨⟨picked, hadmits, fun v hv => h.short v (hmem v hv), rfl⟩, Nat.not_lt.1 hlimit⟩

end WellFormed

end Tuple

namespace Layout

theorem encodeFields_eq (h : List.Forall₂ Attribute.Admits schema row) :
    encodeFields schema row = .ok (row.flatMap Value.encode) := by
  induction h with
  | nil => rfl
  | cons ha _ ih => simp [encodeFields, Attribute.check_eq_ok_iff.2 ha, ih]

/-- A row that the schema admits is encoded unless it is too long. -/
theorem meets_encode {may : Error → Prop} (hmay : ∀ size max, may (.tupleTooLarge size max))
    (hadmits : List.Forall₂ Attribute.Admits l.schema row)
    (hshort : ∀ v ∈ row, v.encodedLength < 4 + 2 ^ 32) :
    Meets (fun t => t.WellFormed l.schema ∧ t.length ≤ l.maxTupleSize) may (l.encode row) := by
  unfold encode checkSize
  rw [if_neg (not_not.2 hadmits.length_eq.symm), encodeFields_eq hadmits]
  split
  · exact hmay _ _
  · rename_i hlimit
    refine ⟨⟨row, hadmits, hshort, rfl⟩, ?_⟩
    rw [Tuple.length, ← rowLength_eq]
    exact Nat.not_lt.1 hlimit

theorem admits_of_encodeFields {bytes : List UInt8} (hlen : row.length = schema.length)
    (h : encodeFields schema row = .ok bytes) : List.Forall₂ Attribute.Admits schema row := by
  induction schema generalizing row bytes with
  | nil =>
    obtain rfl := List.length_eq_zero_iff.1 hlen
    exact .nil
  | cons a schema ih =>
    cases row with
    | nil => simp at hlen
    | cons v row =>
      simp only [encodeFields, bind_eq_ok_iff, pure_eq_ok, Except.ok.injEq] at h
      obtain ⟨⟨⟩, hcheck, rest, hrest, rfl⟩ := h
      exact .cons (Attribute.check_eq_ok_iff.1 hcheck) (ih (Nat.add_right_cancel hlen) hrest)

/-- What was encoded is well-formed, if its texts are shorter than 2 ^ 32 bytes. -/
theorem wellFormed_of_encode (h : l.encode row = .ok t) (hshort : ShortTexts row) :
    t.WellFormed l.schema := by
  obtain ⟨hlen, -, hbytes⟩ := eq_of_encode h
  simp only [encode, throw_eq_error, error_bind, refuse_eq_ok_iff, bind_eq_ok_iff, pure_eq_ok] at h
  obtain ⟨-, _, -, bytes, hfields, -⟩ := h
  exact ⟨row, admits_of_encodeFields hlen hfields, shortTexts_iff.1 hshort, hbytes⟩

end Layout

end QueryEngine
