import QueryEngine.Proofs.Tuple.Bijection

/-!
# Readers agree

Tuples are read in several ways: whole, field by field, as the spans of their fields, or as a length
alone. Each walks over the bytes by itself and decides by itself whether they are long enough. On
any bytes whatever, none of them sees a field that another does not see.

* `Value.width_eq_ok_iff`: a value has a width where it can be read, and ends there.
* `Layout.fieldSpan_eq`: a field lies between the ends of two walks.
* `Layout.exists_break`: a walk that fails does so at one field, and every longer one with it.
* `Layout.readers_agree`: what each reader makes of bytes, by the walk over all fields.
-/

namespace QueryEngine

/-- The bytes are no tuple of the schema. -/
def Error.IsCorrupt (e : Error) : Prop := ∃ cause, e = .corruptTuple cause

variable {bytes : List UInt8} {offset stop w : Nat} {e : Error}

namespace Value

variable {t : DataType} {v : Value} {next : Nat}

/-! ## Single values -/

/-- A word can be read where four bytes are left. -/
theorem exists_readWord (h : offset + 4 ≤ bytes.length) :
    ∃ word, readWord bytes offset = .ok word := by
  have hlength : 4 ≤ (bytes.drop offset).length := by
    rw [List.length_drop]
    omega
  unfold readWord
  match hdrop : bytes.drop offset with
  | a :: b :: c :: d :: rest => exact ⟨_, rfl⟩
  | [] | [_] | [_, _] | [_, _, _] => simp [hdrop] at hlength

theorem isCorrupt_of_readWord (h : readWord bytes offset = .error e) : e.IsCorrupt := by
  unfold readWord at h
  split at h
  · cases h
  · exact ⟨_, (Except.error.inj h).symm⟩

theorem isCorrupt_of_width (h : width t bytes offset = .error e) : e.IsCorrupt := by
  unfold width at h
  split at h
  · split at h
    · cases h
    · exact ⟨_, (Except.error.inj h).symm⟩
  · split at h
    · rename_i hword
      exact isCorrupt_of_readWord (hword.trans h)
    · split at h
      · cases h
      · exact ⟨_, (Except.error.inj h).symm⟩

theorem isCorrupt_of_decode (h : decode t bytes offset = .error e) : e.IsCorrupt := by
  unfold decode at h
  split at h
  · rename_i hword
    exact isCorrupt_of_readWord (hword.trans (congrArg _ (Except.error.inj h)))
  · cases t with
    | integer => cases h
    | real => cases h
    | text =>
      simp only at h
      split at h
      · cases h
      · exact ⟨_, (Except.error.inj h).symm⟩

theorem le_length_of_width (h : width t bytes offset = .ok w) : offset + w ≤ bytes.length := by
  unfold width at h
  split at h
  · split at h
    · rename_i hle
      exact Except.ok.inj h ▸ hle
    · cases h
  · split at h
    · cases h
    · split at h
      · rename_i hle
        obtain rfl := Except.ok.inj h
        omega
      · cases h

/-- What has a width can be read. -/
theorem exists_decode (h : width t bytes offset = .ok w) :
    ∃ v, decode t bytes offset = .ok (v, offset + w) := by
  have hle := le_length_of_width h
  unfold width at h
  cases t
  case integer | real =>
    simp only [DataType.fixedWidth?] at h
    split at h
    · obtain rfl := Except.ok.inj h
      obtain ⟨word, hword⟩ := exists_readWord hle
      exact ⟨_, by rw [decode, hword]⟩
    · cases h
  case text =>
    simp only [DataType.fixedWidth?] at h
    split at h
    · cases h
    · rename_i word hword
      split at h
      · rename_i hstop
        obtain rfl := Except.ok.inj h
        refine ⟨.text ((bytes.drop (offset + 4)).take word), ?_⟩
        rw [← Nat.add_assoc, decode, hword]
        exact if_pos hstop
      · cases h

/-- A value has a width where it can be read, and ends there. -/
theorem width_eq_ok_iff :
    width t bytes offset = .ok w ↔ ∃ v, decode t bytes offset = .ok (v, offset + w) := by
  refine ⟨exists_decode, ?_⟩
  rintro ⟨v, h⟩
  obtain ⟨w', hw, hnext⟩ := width_of_decode h
  rw [hw, Nat.add_left_cancel hnext]

end Value

namespace Layout

variable {l : Layout} {t : Tuple} {schema schema' : Schema} {i j : Nat} {a : Attribute}
  {values row : List Value}

/-! ## Walks -/

/-- A walk over some fields goes on from where the one over the first of them ends. -/
theorem skip_append (bytes : List UInt8) (schema schema' : Schema) (offset : Nat) :
    skip bytes (schema ++ schema') offset = skip bytes schema offset >>= skip bytes schema' := by
  induction schema generalizing offset with
  | nil => rfl
  | cons a schema ih =>
    simp only [List.cons_append, skip]
    cases Value.width a.dataType bytes offset with
    | error e => rfl
    | ok w => exact ih (offset + w)

theorem skip_take_succ (ha : schema[i]? = some a) :
    skip bytes (schema.take (i + 1)) offset = do
      let start ← skip bytes (schema.take i) offset
      return start + (← Value.width a.dataType bytes start) := by
  rw [List.take_add_one, ha, skip_append]
  rfl

theorem le_length_of_skip (h : skip bytes schema offset = .ok stop)
    (hoffset : offset ≤ bytes.length) : offset ≤ stop ∧ stop ≤ bytes.length := by
  induction schema generalizing offset with
  | nil => exact Except.ok.inj h ▸ ⟨Nat.le_refl _, hoffset⟩
  | cons a schema ih =>
    obtain ⟨w, hw, hrest⟩ := bind_eq_ok_iff.1 h
    obtain ⟨hstart, hstop⟩ := ih hrest (Value.le_length_of_width hw)
    exact ⟨Nat.le_trans (Nat.le_add_right _ _) hstart, hstop⟩

/-- A walk that comes to its end does so over the first fields as well. -/
theorem exists_skip_take (h : skip bytes schema offset = .ok stop) (i : Nat) :
    ∃ start, skip bytes (schema.take i) offset = .ok start := by
  rw [← List.take_append_drop i schema, skip_append] at h
  obtain ⟨start, hstart, -⟩ := bind_eq_ok_iff.1 h
  exact ⟨start, hstart⟩

/-- A walk that fails does so at one field, and every longer one with it. -/
theorem exists_break (h : skip bytes schema offset = .error e) :
    ∃ k < schema.length, (∀ i ≤ k, ∃ start, skip bytes (schema.take i) offset = .ok start) ∧
      ∀ i, k < i → skip bytes (schema.take i) offset = .error e := by
  induction schema generalizing offset with
  | nil => cases h
  | cons a schema ih =>
    rcases bind_eq_error_iff.1 h with hw | ⟨w, hw, hrest⟩
    · refine ⟨0, Nat.zero_lt_succ _, fun i hi => ?_, fun i hi => ?_⟩
      · obtain rfl := Nat.le_zero.1 hi
        exact ⟨offset, rfl⟩
      · obtain ⟨i, rfl⟩ := Nat.exists_eq_succ_of_ne_zero (Nat.ne_of_gt hi)
        rw [List.take_succ_cons, skip, hw]
        rfl
    · have hcons : ∀ i, skip bytes ((a :: schema).take (i + 1)) offset =
          skip bytes (schema.take i) (offset + w) := by
        intro i
        rw [List.take_succ_cons, skip, hw]
        rfl
      obtain ⟨k, hk, hbefore, hafter⟩ := ih hrest
      refine ⟨k + 1, Nat.succ_lt_succ hk, fun i hi => ?_, fun i hi => ?_⟩
      · cases i with
        | zero => exact ⟨offset, rfl⟩
        | succ i => exact hcons i ▸ hbefore i (Nat.le_of_succ_le_succ hi)
      · cases i with
        | zero => cases hi
        | succ i => exact hcons i ▸ hafter i (Nat.lt_of_succ_lt_succ hi)

theorem isCorrupt_of_skip (h : skip bytes schema offset = .error e) : e.IsCorrupt := by
  induction schema generalizing offset with
  | nil => cases h
  | cons a schema ih =>
    rcases bind_eq_error_iff.1 h with hw | ⟨w, -, hrest⟩
    · exact Value.isCorrupt_of_width hw
    · exact ih hrest

/-! ## The other readers -/

/-- A field lies between the ends of two walks. -/
theorem fieldSpan_eq (hi : i < l.schema.length) :
    l.fieldSpan t i = do
      let start ← skip t.bytes (l.schema.take i) 0
      return (start, ← skip t.bytes (l.schema.take (i + 1)) 0) := by
  have ha := List.getElem?_eq_getElem hi
  simp only [skip_take_succ ha, fieldSpan, ha]
  cases skip t.bytes (l.schema.take i) 0 with
  | error e => rfl
  | ok start =>
    simp only [ok_bind]
    cases Value.width l.schema[i].dataType t.bytes start <;> rfl

theorem fieldSpan_of_error (hi : i < l.schema.length)
    (h : skip t.bytes (l.schema.take (i + 1)) 0 = .error e) : l.fieldSpan t i = .error e := by
  rw [fieldSpan_eq hi]
  cases hstart : skip t.bytes (l.schema.take i) 0 with
  | ok start =>
    rw [ok_bind, h]
    rfl
  | error e' =>
    rw [skip_take_succ (List.getElem?_eq_getElem hi), hstart] at h
    rw [error_bind, Except.error.inj h]

theorem field_eq (hi : i < l.schema.length) :
    l.field t i = do
      let (start, _) ← l.fieldSpan t i
      return (← Value.decode l.schema[i].dataType t.bytes start).1 := by
  rw [field, List.getElem?_eq_getElem hi]

/-- A field between two walks can be read, and is written as the bytes between them. -/
theorem exists_field_of_skip {start : Nat} (hi : i < l.schema.length)
    (hstart : skip t.bytes (l.schema.take i) 0 = .ok start)
    (hstop : skip t.bytes (l.schema.take (i + 1)) 0 = .ok stop) :
    start ≤ stop ∧ l.fieldSpan t i = .ok (start, stop) ∧
      ∃ v, l.field t i = .ok v ∧ v.encode = t.bytes.extract start stop := by
  have hspan : l.fieldSpan t i = .ok (start, stop) := by
    rw [fieldSpan_eq hi, hstart, ok_bind, hstop]
    rfl
  have hlength := (le_length_of_skip hstop (Nat.zero_le _)).2
  rw [skip_take_succ (List.getElem?_eq_getElem hi), hstart, ok_bind] at hstop
  obtain ⟨w, hw, hstop⟩ := bind_eq_ok_iff.1 hstop
  obtain rfl : start + w = stop := Except.ok.inj hstop
  obtain ⟨v, hv⟩ := Value.width_eq_ok_iff.1 hw
  refine ⟨Nat.le_add_right _ _, hspan, v, ?_, ?_⟩
  · simp only [field_eq hi, hspan, ok_bind, hv, pure_eq_ok]
  · have hdrop := Value.drop_of_decode hv
    have hwidth : v.encode.length = w := by
      have := congrArg List.length hdrop
      simp only [List.length_append, List.length_drop] at this
      omega
    rw [List.extract_eq_take_drop, hdrop, Nat.add_sub_cancel_left, ← hwidth, List.take_left]

theorem skip_eq_of_decodeFields (h : decodeFields bytes schema offset = .ok (values, stop)) :
    skip bytes schema offset = .ok stop := by
  induction schema generalizing offset values with
  | nil =>
    obtain ⟨-, rfl⟩ := Prod.mk.inj (Except.ok.inj h)
    rfl
  | cons a schema ih =>
    obtain ⟨v, next, rest, hv, hrest, -⟩ := decodeFields_cons_eq_ok_iff.1 h
    obtain ⟨w, hw, rfl⟩ := Value.width_of_decode hv
    rw [skip, hw, ok_bind, ih hrest]

theorem exists_decodeFields (h : skip bytes schema offset = .ok stop) :
    ∃ values, decodeFields bytes schema offset = .ok (values, stop) := by
  induction schema generalizing offset with
  | nil => exact ⟨[], Except.ok.inj h ▸ rfl⟩
  | cons a schema ih =>
    obtain ⟨w, hw, hrest⟩ := bind_eq_ok_iff.1 h
    obtain ⟨v, hv⟩ := Value.width_eq_ok_iff.1 hw
    obtain ⟨values, hvalues⟩ := ih hrest
    exact ⟨v :: values, decodeFields_cons_eq_ok_iff.2 ⟨v, _, values, hv, hvalues, rfl⟩⟩

theorem isCorrupt_of_decodeFields (h : decodeFields bytes schema offset = .error e) :
    e.IsCorrupt := by
  induction schema generalizing offset with
  | nil => cases h
  | cons a schema ih =>
    rcases bind_eq_error_iff.1 h with hv | ⟨⟨v, next⟩, -, hrest⟩
    · exact Value.isCorrupt_of_decode hv
    · rcases bind_eq_error_iff.1 hrest with hrest | ⟨_, -, hnone⟩
      · exact ih hrest
      · cases hnone

/-- A row is decoded if the walk over its fields ends with the bytes. -/
theorem exists_decode_iff :
    (∃ row, l.decode t = .ok row) ↔ l.encodedLength t.bytes = .ok t.length := by
  constructor
  · rintro ⟨row, h⟩
    exact skip_eq_of_decodeFields (decodeFields_of_decode h)
  · intro h
    obtain ⟨row, hrow⟩ := exists_decodeFields h
    exact ⟨row, by rw [decode, hrow, ok_bind]; exact if_neg fun hne => hne rfl⟩

theorem isCorrupt_of_decode (h : l.decode t = .error e) : e.IsCorrupt := by
  rcases bind_eq_error_iff.1 h with h | ⟨⟨values, stop⟩, -, h⟩
  · exact isCorrupt_of_decodeFields h
  · dsimp only at h
    split at h
    · exact ⟨_, (Except.error.inj h).symm⟩
    · cases h

theorem fieldBytes_of_skip (h : skip bytes schema offset = .error e) :
    fieldBytes bytes schema offset = .error e := by
  induction schema generalizing offset with
  | nil => cases h
  | cons a schema ih =>
    rcases bind_eq_error_iff.1 h with hw | ⟨w, hw, hrest⟩
    · rw [fieldBytes, hw, error_bind]
    · rw [fieldBytes, hw, ok_bind, ih hrest, error_bind]

/-! ## Agreement -/

/-- What the readers make of some bytes, by the walk over all fields. -/
structure ReadersAgree (l : Layout) (t : Tuple) : Prop where
  /-- The fields lie side by side up to the end of the walk, and each is written as the bytes that
  it was read from. -/
  tiled : ∀ m, l.encodedLength t.bytes = .ok m → m ≤ t.length ∧
    ∃ cut : Nat → Nat, cut 0 = 0 ∧ cut l.schema.length = m ∧ ∀ i < l.schema.length,
      cut i ≤ cut (i + 1) ∧ l.fieldSpan t i = .ok (cut i, cut (i + 1)) ∧
        ∃ v, l.field t i = .ok v ∧ v.encode = t.bytes.extract (cut i) (cut (i + 1))
  /-- Only bytes that end with the last field are a row. -/
  whole : (∃ row, l.decode t = .ok row) ↔ l.encodedLength t.bytes = .ok t.length
  fields : ∀ row, l.decode t = .ok row →
    row.length = l.schema.length ∧ ∀ i v, row[i]? = some v → l.field t i = .ok v
  /-- If the walk fails, there is a first field that cannot be read, and nothing that needs it or
  any later one can be. -/
  broken : ∀ e, l.encodedLength t.bytes = .error e →
    e.IsCorrupt ∧
      (∃ k < l.schema.length,
        (∀ i < k, (∃ span, l.fieldSpan t i = .ok span) ∧ ∃ v, l.field t i = .ok v) ∧
        ∀ i, k ≤ i → i < l.schema.length → l.fieldSpan t i = .error e ∧ l.field t i = .error e) ∧
      (∃ cause, l.decode t = .error (.corruptTuple cause)) ∧
      ∀ positions, l.project t positions = .error e

/-- **All readers agree on any bytes**, whether these are a tuple of the schema or not. -/
theorem readers_agree (l : Layout) (t : Tuple) : l.ReadersAgree t where
  tiled m h := by
    choose cut hcut using exists_skip_take h
    have hall : cut l.schema.length = m := by
      have := hcut l.schema.length
      rw [List.take_length] at this
      exact Except.ok.inj (this.symm.trans h)
    refine ⟨(le_length_of_skip h (Nat.zero_le _)).2, cut, (Except.ok.inj (hcut 0)).symm, hall, ?_⟩
    exact fun i hi => exists_field_of_skip hi (hcut i) (hcut (i + 1))
  whole := exists_decode_iff
  fields row h := by
    have hlength := length_of_decodeFields (decodeFields_of_decode h)
    refine ⟨hlength, fun i v hv => ?_⟩
    have hi : i < l.schema.length := hlength ▸ (List.getElem?_eq_some_iff.1 hv).1
    obtain ⟨v', hv', hfield, -⟩ := field_of_decode h (List.getElem?_eq_getElem hi)
    rw [hfield, Option.some.inj (hv.symm.trans hv')]
  broken e h := by
    obtain ⟨k, hk, hbefore, hafter⟩ := exists_break h
    refine ⟨isCorrupt_of_skip h, ⟨k, hk, fun i hi => ?_, fun i hki hi => ?_⟩, ?_,
      fun positions => ?_⟩
    · obtain ⟨start, hstart⟩ := hbefore i (Nat.le_of_lt hi)
      obtain ⟨stop, hstop⟩ := hbefore (i + 1) hi
      obtain ⟨-, hspan, v, hv, -⟩ := exists_field_of_skip (Nat.lt_trans hi hk) hstart hstop
      exact ⟨⟨_, hspan⟩, v, hv⟩
    · have hspan := fieldSpan_of_error hi (hafter (i + 1) (Nat.lt_succ_of_le hki))
      exact ⟨hspan, by rw [field_eq hi, hspan, error_bind]⟩
    · cases hdecode : l.decode t with
      | error e' =>
        obtain ⟨cause, rfl⟩ := isCorrupt_of_decode hdecode
        exact ⟨cause, rfl⟩
      | ok row =>
        have hok := exists_decode_iff.1 ⟨row, hdecode⟩
        cases h.symm.trans hok
    · rw [project, fieldBytes_of_skip h, error_bind]

end Layout

end QueryEngine
