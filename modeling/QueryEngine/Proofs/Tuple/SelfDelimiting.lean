import QueryEngine.Proofs.Tuple.Concat
import QueryEngine.Proofs.Tuple.Readers

/-!
# Tuples delimit themselves

A tuple has neither a length before it nor a mark after it. Still its end is known without knowing
where the bytes end: a walk over the fields stops there, whatever follows. So the bytes of two
tuples together hold each of them once, and can be taken apart in one way only.

* `Layout.encodedLength_append`: the length of a tuple, read off bytes that it is the front of.
* `Layout.eq_of_append_eq`: bytes have at most one tuple of a schema at their front.
* `Layout.sideBySide`: how two tuples are read that were put together.
-/

namespace QueryEngine

namespace Layout

variable {l left right : Layout} {s t s' t' : Tuple} {row row' u w : List Value}
  {rest rest' : List UInt8}

/-! ## Tuples in front -/

/-- A row is read off the front of any bytes that begin with its tuple, up to the end of that. -/
theorem decodeFields_append (h : l.decode t = .ok row) (rest : List UInt8) :
    decodeFields (t.bytes ++ rest) l.schema 0 = .ok (row, t.length) := by
  obtain ⟨htypes, hshort, hbytes⟩ := decode_eq_ok_iff.1 h
  have hd := decodeFields_encode [] rest htypes hshort
  rwa [List.nil_append, List.length_nil, Nat.zero_add, ← hbytes] at hd

/-- The length of a tuple does not depend on what follows it. -/
theorem encodedLength_append (h : l.decode t = .ok row) (rest : List UInt8) :
    l.encodedLength (t.bytes ++ rest) = .ok t.length :=
  skip_eq_of_decodeFields (decodeFields_append h rest)

/-- Bytes have at most one tuple of a schema at their front. -/
theorem eq_of_append_eq (h : l.decode t = .ok row) (h' : l.decode t' = .ok row')
    (happend : t.bytes ++ rest = t'.bytes ++ rest') : t = t' ∧ rest = rest' := by
  have hlength : t.length = t'.length := by
    have hread := encodedLength_append h rest
    rw [happend, encodedLength_append h' rest'] at hread
    exact (Except.ok.inj hread).symm
  obtain ⟨hbytes, hrest⟩ := List.append_inj happend hlength
  exact ⟨Tuple.ext hbytes, hrest⟩

/-! ## Two tuples -/

theorem field_of_length_le {i : Nat} (h : l.schema.length ≤ i) :
    l.field t i = .error (.internal (.fieldOutOfBounds i l.schema.length)) := by
  rw [field, List.getElem?_eq_none h]

/-- How two tuples are read that were put together, under a layout of all fields with any limit. -/
structure SideBySide (left right : Layout) (s t : Tuple) (u w : List Value) : Prop where
  decodes : ∀ limit, decode ⟨left.schema ++ right.schema, limit⟩ (s ++ t) = .ok (u ++ w)
  field_left : ∀ limit, ∀ i < left.schema.length,
    field ⟨left.schema ++ right.schema, limit⟩ (s ++ t) i = left.field s i
  field_right : ∀ limit i, left.schema.length ≤ i → i < left.schema.length + right.schema.length →
    field ⟨left.schema ++ right.schema, limit⟩ (s ++ t) i = right.field t (i - left.schema.length)
  /-- There are no more fields than those of the two. -/
  field_none : ∀ limit i, left.schema.length + right.schema.length ≤ i →
    field ⟨left.schema ++ right.schema, limit⟩ (s ++ t) i = .error (.internal
      (.fieldOutOfBounds i (left.schema.length + right.schema.length))) ∧
    right.field t (i - left.schema.length) = .error (.internal
      (.fieldOutOfBounds (i - left.schema.length) right.schema.length))
  /-- The first tuple ends where it did, whatever is put behind it. -/
  encodedLength : ∀ rest, left.encodedLength (s.bytes ++ rest) = .ok s.length
  /-- No other two tuples give the same bytes. -/
  unique : ∀ s' t' u' w', left.decode s' = .ok u' → right.decode t' = .ok w' →
    s' ++ t' = s ++ t → s' = s ∧ t' = t

/-- **Two tuples put together are read as the two rows together**, and can be taken apart in one way
only. -/
theorem sideBySide (hs : left.decode s = .ok u) (ht : right.decode t = .ok w) :
    left.SideBySide right s t u w where
  decodes limit := decode_append hs ht
  field_left limit i hi := field_append_left hs ht (List.getElem?_eq_getElem hi)
  field_right limit i hle hlt := by
    obtain ⟨j, rfl⟩ := Nat.exists_eq_add_of_le hle
    have hj : j < right.schema.length := Nat.lt_of_add_lt_add_left hlt
    rw [Nat.add_sub_cancel_left]
    exact field_append_right hs ht (List.getElem?_eq_getElem hj)
  field_none limit i hle := by
    constructor
    · rw [← List.length_append] at hle ⊢
      exact field_of_length_le hle
    · exact field_of_length_le (Nat.le_sub_of_add_le' hle)
  encodedLength := encodedLength_append hs
  unique s' t' u' w' hs' _ happend := by
    obtain ⟨hfirst, hsecond⟩ := eq_of_append_eq hs' hs (congrArg Tuple.bytes happend)
    exact ⟨hfirst, Tuple.ext hsecond⟩

/-- Two texts, of which the first is empty and the second looks like the length of a text. -/
theorem sideBySide_texts :
    let left : Layout := ⟨[.integer "n", .text "a" 4], 16⟩
    let right : Layout := ⟨[.text "b" 4], 16⟩
    let s : Tuple := ⟨[7, 0, 0, 0, 0, 0, 0, 0]⟩
    let t : Tuple := ⟨[4, 0, 0, 0, 1, 0, 0, 0]⟩
    left.decode s = .ok [.integer 7, .text []] ∧ right.decode t = .ok [.text [1, 0, 0, 0]] ∧
      decode ⟨left.schema ++ right.schema, 16⟩ (s ++ t) =
        .ok [.integer 7, .text [], .text [1, 0, 0, 0]] ∧
      left.encodedLength (s.bytes ++ [9, 9]) = .ok 8 := by
  intro left right s t
  have hs : left.decode s = .ok [.integer 7, .text []] := by decide
  have ht : right.decode t = .ok [.text [1, 0, 0, 0]] := by decide
  have h := sideBySide hs ht
  exact ⟨hs, ht, h.decodes 16, h.encodedLength [9, 9]⟩

end Layout

end QueryEngine
