import QueryEngine.Proofs.Tuple.Bijection

/-!
# Tuples side by side

The bytes of a field say where it ends, so two tuples put together are read as one, whose schema is
that of the first followed by that of the second.

* `Layout.decode_eq_ok_iff`: which bytes are a tuple, without reading them from the front.
* `Layout.decode_append`: two tuples put together decode to their rows put together.
* `Layout.field_append_left`, `Layout.field_append_right`: each field is one of either tuple.
* `Schema.find?_append_left`, `Schema.find?_append_right`: where names are found then.
-/

namespace QueryEngine

/-! ## Names -/

namespace Schema

variable {left right : Schema} {name : String} {i j : Nat} {a b : Attribute}

theorem find?_append_left (right : Schema) (h : left.find? name = some (i, a)) :
    (left ++ right).find? name = some (i, a) := by
  induction left generalizing i with
  | nil => cases h
  | cons b left ih =>
    rw [List.cons_append, find?]
    rw [find?] at h
    split
    · rename_i hname
      rwa [if_pos hname] at h
    · rename_i hname
      rw [if_neg hname] at h
      obtain ⟨⟨j, a'⟩, hfound, hij⟩ := Option.map_eq_some_iff.1 h
      obtain ⟨rfl, rfl⟩ := Prod.mk.inj hij
      rw [ih hfound, Option.map_some]

theorem find?_append_right (hleft : ∀ a ∈ left, a.name ≠ name)
    (h : right.find? name = some (j, b)) :
    (left ++ right).find? name = some (left.length + j, b) := by
  induction left with
  | nil => rw [List.nil_append, h, List.length_nil, Nat.zero_add]
  | cons a left ih =>
    obtain ⟨hne, hrest⟩ := List.forall_mem_cons.1 hleft
    rw [List.cons_append, find?, if_neg hne, ih hrest, Option.map_some, List.length_cons,
      Nat.add_right_comm]

end Schema

/-! ## Rows -/

variable {bytes : List UInt8} {offset next stop : Nat}

/-- A text that was read is not longer than the word before it can say. -/
theorem Value.encodedLength_lt_of_decode {t : DataType} {v : Value}
    (h : decode t bytes offset = .ok (v, next)) : v.encodedLength < 4 + 2 ^ 32 := by
  unfold decode at h
  split at h
  · cases h
  · rename_i word hread
    obtain ⟨-, hword⟩ := drop_of_readWord hread
    cases t with
    | integer | real =>
      obtain ⟨rfl, -⟩ := Prod.mk.inj (Except.ok.inj h)
      simp [encodedLength]
    | text =>
      simp only at h
      split at h
      · obtain ⟨rfl, -⟩ := Prod.mk.inj (Except.ok.inj h)
        rw [encodedLength, List.length_take]
        omega
      · cases h

namespace Layout

variable {l : Layout} {schema left right : Schema} {values row u w : List Value} {s t : Tuple}
  {i : Nat} {a : Attribute}

theorem encodedLength_lt_of_decodeFields
    (h : decodeFields bytes schema offset = .ok (values, stop)) :
    ∀ v ∈ values, v.encodedLength < 4 + 2 ^ 32 := by
  induction schema generalizing offset values stop with
  | nil =>
    obtain ⟨rfl, -⟩ := Prod.mk.inj (Except.ok.inj h)
    exact fun _ hv => nomatch hv
  | cons a schema ih =>
    obtain ⟨v, next, rest, hv, hrest, rfl⟩ := decodeFields_cons_eq_ok_iff.1 h
    exact List.forall_mem_cons.2 ⟨Value.encodedLength_lt_of_decode hv, ih hrest⟩

theorem map_dataType_of_decodeFields (h : decodeFields bytes schema offset = .ok (values, stop)) :
    values.map Value.dataType = schema.map Attribute.dataType := by
  have htypes := dataTypes_of_decodeFields h
  clear h
  induction htypes with
  | nil => rfl
  | cons hv _ ih => rw [List.map_cons, List.map_cons, hv, ih]

/-- A tuple decodes to a row if it is the values of the row written one after the other. -/
theorem decode_eq_ok_iff : l.decode t = .ok row ↔
    row.map Value.dataType = l.schema.map Attribute.dataType ∧
      (∀ v ∈ row, v.encodedLength < 4 + 2 ^ 32) ∧ t.bytes = row.flatMap Value.encode := by
  constructor
  · intro h
    have hfields := decodeFields_of_decode h
    exact ⟨map_dataType_of_decodeFields hfields, encodedLength_lt_of_decodeFields hfields,
      bytes_of_decode h⟩
  · rintro ⟨htypes, hshort, hbytes⟩
    have hd := decodeFields_encode [] [] htypes hshort
    simp only [List.nil_append, List.append_nil, List.length_nil, Nat.zero_add, ← hbytes] at hd
    simp [decode, hd, Tuple.length]

/-- **Two tuples put together decode to their rows put together.** -/
theorem decode_append (hs : decode { schema := left } s = .ok u)
    (ht : decode { schema := right } t = .ok w) :
    decode { schema := left ++ right } (s ++ t) = .ok (u ++ w) := by
  obtain ⟨hsTypes, hsShort, hsBytes⟩ := decode_eq_ok_iff.1 hs
  obtain ⟨htTypes, htShort, htBytes⟩ := decode_eq_ok_iff.1 ht
  refine decode_eq_ok_iff.2 ⟨?_, fun v hv => ?_, ?_⟩
  · rw [List.map_append, hsTypes, htTypes, List.map_append]
  · exact (List.mem_append.1 hv).elim (hsShort v) (htShort v)
  · rw [Tuple.bytes_append, hsBytes, htBytes, List.flatMap_append]

theorem field_append_left (hs : decode { schema := left } s = .ok u)
    (ht : decode { schema := right } t = .ok w) (ha : left[i]? = some a) :
    field { schema := left ++ right } (s ++ t) i = field { schema := left } s i := by
  have happend : (left ++ right)[i]? = some a := by
    rw [List.getElem?_append_left (List.getElem?_eq_some_iff.1 ha).1, ha]
  obtain ⟨v, hv, hfield, -⟩ := field_of_decode hs ha
  obtain ⟨v', hv', hfield', -⟩ := field_of_decode (decode_append hs ht) happend
  rw [List.getElem?_append_left (List.getElem?_eq_some_iff.1 hv).1] at hv'
  rw [hfield, hfield', Option.some.inj (hv'.symm.trans hv)]

theorem field_append_right (hs : decode { schema := left } s = .ok u)
    (ht : decode { schema := right } t = .ok w) (ha : right[i]? = some a) :
    field { schema := left ++ right } (s ++ t) (left.length + i) =
      field { schema := right } t i := by
  have happend : (left ++ right)[left.length + i]? = some a := by
    rw [List.getElem?_append_right (Nat.le_add_right _ _), Nat.add_sub_cancel_left, ha]
  have hlength : u.length = left.length := length_of_decodeFields (decodeFields_of_decode hs)
  obtain ⟨v, hv, hfield, -⟩ := field_of_decode ht ha
  obtain ⟨v', hv', hfield', -⟩ := field_of_decode (decode_append hs ht) happend
  rw [← hlength, List.getElem?_append_right (Nat.le_add_right _ _), Nat.add_sub_cancel_left] at hv'
  rw [hfield, hfield', Option.some.inj (hv'.symm.trans hv)]

end Layout

theorem Tuple.IsRow.append {left right : Schema} {s t : Tuple} (hs : s.IsRow left)
    (ht : t.IsRow right) : (s ++ t).IsRow (left ++ right) := by
  obtain ⟨u, hu⟩ := hs
  obtain ⟨w, hw⟩ := ht
  exact ⟨u ++ w, Layout.decode_append hu hw⟩

end QueryEngine
