import QueryEngine.Proofs.Tuple.Concat
import QueryEngine.Proofs.Tuple.Readers

/-!
# Some fields of a tuple

A projection finds out where all fields lie and copies the bytes of some of them, in any order and
as often as they are asked for. What it writes is a tuple again, of the attributes at the same
positions, and holds the values at them.

* `itemsAt`: the items of a list at some positions.
* `Layout.project_eq`: what a projection of a row comes to, which depends on the values alone.
* `Layout.exists_span_of_decode`: where a value lies in the tuple of its row.
* `Layout.projects`: what is made of a row, and what is made of that in turn.
-/

namespace QueryEngine

/-! ## Positions -/

section Positions

variable {α β : Type} {list : List α} {positions : List Nat} {i k : Nat}

/-- The items of a list at some positions, in the order of the positions. -/
def itemsAt (list : List α) (positions : List Nat) : List α := positions.filterMap (list[·]?)

theorem itemsAt_cons (h : i < list.length) (positions : List Nat) :
    itemsAt list (i :: positions) = list[i] :: itemsAt list positions := by
  rw [itemsAt, List.filterMap_cons_some (List.getElem?_eq_getElem h), itemsAt]

theorem mem_of_mem_itemsAt {a : α} (h : a ∈ itemsAt list positions) : a ∈ list := by
  obtain ⟨i, -, hi⟩ := List.mem_filterMap.1 h
  exact List.mem_of_getElem? hi

theorem eq_itemsAt_of_forall₂ {items : List α}
    (h : List.Forall₂ (fun i a => list[i]? = some a) positions items) :
    (∀ i ∈ positions, i < list.length) ∧ items = itemsAt list positions := by
  induction h with
  | nil => exact ⟨fun _ hi => (nomatch hi), rfl⟩
  | cons ha _ ih =>
    obtain ⟨hi, rfl⟩ := List.getElem?_eq_some_iff.1 ha
    exact ⟨List.forall_mem_cons.2 ⟨hi, ih.1⟩, by rw [itemsAt_cons hi, ih.2]⟩

theorem map_itemsAt (f : α → β) (list : List α) (positions : List Nat) :
    (itemsAt list positions).map f = itemsAt (list.map f) positions := by
  simp only [itemsAt, List.map_filterMap, List.getElem?_map]

variable (hin : ∀ i ∈ positions, i < list.length)

include hin

theorem forall₂_itemsAt :
    List.Forall₂ (fun i a => list[i]? = some a) positions (itemsAt list positions) := by
  induction positions with
  | nil => exact .nil
  | cons i positions ih =>
    obtain ⟨hi, hrest⟩ := List.forall_mem_cons.1 hin
    rw [itemsAt_cons hi]
    exact .cons (List.getElem?_eq_getElem hi) (ih hrest)

theorem length_itemsAt : (itemsAt list positions).length = positions.length :=
  (forall₂_itemsAt hin).length_eq.symm

theorem getElem?_itemsAt (k : Nat) :
    (itemsAt list positions)[k]? = positions[k]?.bind (list[·]?) := by
  induction positions generalizing k with
  | nil => rfl
  | cons i positions ih =>
    obtain ⟨hi, hrest⟩ := List.forall_mem_cons.1 hin
    rw [itemsAt_cons hi]
    cases k with
    | zero => exact (List.getElem?_eq_getElem hi).symm
    | succ k => exact ih hrest k

/-- Items at positions among items at positions. -/
theorem itemsAt_itemsAt (again : List Nat) :
    itemsAt (itemsAt list positions) again = itemsAt list (itemsAt positions again) := by
  simp only [itemsAt, List.filterMap_filterMap]
  exact List.filterMap_congr fun k _ => getElem?_itemsAt hin k

end Positions

namespace Layout

variable {l : Layout} {t u : Tuple} {row : List Value} {positions : List Nat} {i : Nat} {v : Value}

/-! ## Projections of rows -/

/-- The layout of the attributes at some positions, with the same limit. -/
def restrict (l : Layout) (positions : List Nat) : Layout :=
  ⟨itemsAt l.schema positions, l.maxTupleSize⟩

/-- Of a row, a projection makes the values at its positions, unless they are too long together. -/
theorem project_eq (h : l.decode t = .ok row) (hin : ∀ i ∈ positions, i < l.schema.length) :
    l.project t positions = do
      l.checkSize (rowLength (itemsAt row positions))
      return ⟨(itemsAt row positions).flatMap Value.encode⟩ := by
  obtain ⟨htypes, hshort, hbytes⟩ := decode_eq_ok_iff.1 h
  have hlength : row.length = l.schema.length := length_of_decodeFields (decodeFields_of_decode h)
  have hfields := fieldBytes_encode [] [] htypes hshort
  simp only [List.nil_append, List.append_nil, List.length_nil, ← hbytes] at hfields
  rw [project, hfields, ok_bind, select_encode (forall₂_itemsAt (hlength.symm ▸ hin)), ok_bind,
    rowLength_eq]

theorem project_eq_ok_iff (h : l.decode t = .ok row) (hin : ∀ i ∈ positions, i < l.schema.length) :
    l.project t positions = .ok u ↔
      rowLength (itemsAt row positions) ≤ l.maxTupleSize ∧
        u.bytes = (itemsAt row positions).flatMap Value.encode := by
  rw [project_eq h hin]
  constructor
  · intro hu
    obtain ⟨⟨⟩, hsize, hu⟩ := bind_eq_ok_iff.1 hu
    exact ⟨checkSize_eq_ok_iff.1 hsize, Except.ok.inj hu ▸ rfl⟩
  · rintro ⟨hsize, hbytes⟩
    rw [checkSize_eq_ok_iff.2 hsize, ok_bind, ← hbytes]
    rfl

/-- A projection of a row fails for no reason but its length. -/
theorem eq_of_project_error {e : Error} (h : l.decode t = .ok row)
    (hin : ∀ i ∈ positions, i < l.schema.length) (he : l.project t positions = .error e) :
    e = .tupleTooLarge (rowLength (itemsAt row positions)) l.maxTupleSize := by
  rw [project_eq h hin, checkSize] at he
  split at he
  · exact (Except.error.inj he).symm
  · cases he

/-- What was made holds the values at the positions. -/
theorem decode_of_project (h : l.decode t = .ok row) (hin : ∀ i ∈ positions, i < l.schema.length)
    (hu : l.project t positions = .ok u) :
    (l.restrict positions).decode u = .ok (itemsAt row positions) := by
  obtain ⟨htypes, hshort, -⟩ := decode_eq_ok_iff.1 h
  obtain ⟨-, hbytes⟩ := (project_eq_ok_iff h hin).1 hu
  refine decode_eq_ok_iff.2 ⟨?_, fun v hv => hshort v (mem_of_mem_itemsAt hv), hbytes⟩
  rw [restrict, map_itemsAt, map_itemsAt, htypes]

/-! ## Bytes of fields -/

/-- In the tuple of a row, a value lies where its field does. -/
theorem exists_span_of_decode (h : l.decode t = .ok row) (hv : row[i]? = some v) :
    ∃ start stop, l.fieldSpan t i = .ok (start, stop) ∧ t.bytes.extract start stop = v.encode := by
  have hlength : row.length = l.schema.length := length_of_decodeFields (decodeFields_of_decode h)
  have hi : i < l.schema.length := hlength ▸ (List.getElem?_eq_some_iff.1 hv).1
  have hwalk : skip t.bytes l.schema 0 = .ok t.length := exists_decode_iff.1 ⟨row, h⟩
  obtain ⟨start, hstart⟩ := exists_skip_take hwalk i
  obtain ⟨stop, hstop⟩ := exists_skip_take hwalk (i + 1)
  obtain ⟨-, hspan, w, hw, hbytes⟩ := exists_field_of_skip hi hstart hstop
  obtain ⟨v', hv', hfield, -⟩ := field_of_decode h (List.getElem?_eq_getElem hi)
  obtain rfl : v' = v := Option.some.inj (hv'.symm.trans hv)
  obtain rfl : w = v' := Except.ok.inj (hw.symm.trans hfield)
  exact ⟨start, stop, hspan, hbytes.symm⟩

/-- What comes of projecting the tuple of a row. -/
structure Projects (l : Layout) (t : Tuple) (row : List Value) (positions : List Nat) : Prop where
  made_iff : (∃ u, l.project t positions = .ok u) ↔
    rowLength (itemsAt row positions) ≤ l.maxTupleSize
  error : ∀ e, l.project t positions = .error e →
    e = .tupleTooLarge (rowLength (itemsAt row positions)) l.maxTupleSize
  decodes : ∀ u, l.project t positions = .ok u →
    (l.restrict positions).decode u = .ok (itemsAt row positions)
  /-- Each field has the bytes of the one that it was made of. -/
  bytes : ∀ u, l.project t positions = .ok u → ∀ k i, positions[k]? = some i →
    ∃ start stop start' stop', l.fieldSpan t i = .ok (start, stop) ∧
      (l.restrict positions).fieldSpan u k = .ok (start', stop') ∧
      u.bytes.extract start' stop' = t.bytes.extract start stop
  /-- Projecting again is projecting once, with the same answer if the result is too long. -/
  again : ∀ u, l.project t positions = .ok u → ∀ again, (∀ k ∈ again, k < positions.length) →
    (l.restrict positions).project u again = l.project t (itemsAt positions again)

theorem projects (h : l.decode t = .ok row) (hin : ∀ i ∈ positions, i < l.schema.length) :
    l.Projects t row positions := by
  have hlength : row.length = l.schema.length := length_of_decodeFields (decodeFields_of_decode h)
  constructor
  case made_iff =>
    constructor
    · rintro ⟨u, hu⟩
      exact ((project_eq_ok_iff h hin).1 hu).1
    · exact fun hsize => ⟨_, (project_eq_ok_iff h hin).2 ⟨hsize, rfl⟩⟩
  case error => exact fun e => eq_of_project_error h hin
  case decodes => exact fun u => decode_of_project h hin
  case bytes =>
    intro u hu k i hk
    have hi : i < row.length := hlength ▸ hin i (List.mem_of_getElem? hk)
    have hpicked : (itemsAt row positions)[k]? = some row[i] := by
      rw [getElem?_itemsAt (hlength.symm ▸ hin), hk]
      exact List.getElem?_eq_getElem hi
    obtain ⟨start, stop, hspan, hbytes⟩ := exists_span_of_decode h (List.getElem?_eq_getElem hi)
    obtain ⟨start', stop', hspan', hbytes'⟩ :=
      exists_span_of_decode (decode_of_project h hin hu) hpicked
    exact ⟨start, stop, start', stop', hspan, hspan', hbytes'.trans hbytes.symm⟩
  case again =>
    intro u hu again hagain
    have hrestrict : ∀ k ∈ again, k < (l.restrict positions).schema.length := by
      rw [restrict, length_itemsAt hin]
      exact hagain
    have hcomposed : ∀ i ∈ itemsAt positions again, i < l.schema.length :=
      fun i hi => hin i (mem_of_mem_itemsAt hi)
    -- both are made of the same values, and the limit is the same
    rw [project_eq (decode_of_project h hin hu) hrestrict, project_eq h hcomposed,
      itemsAt_itemsAt (hlength.symm ▸ hin)]
    rfl

end Layout

end QueryEngine
