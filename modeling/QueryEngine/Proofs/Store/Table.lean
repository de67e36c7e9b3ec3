import QueryEngine.Proofs.Predicate
import QueryEngine.Proofs.Store.Index
import QueryEngine.Store.Basic

/-!
# What tables and stores keep up

* `Table.Sound`: ids count the rows, rows are encoded, and indexes are on attributes of the table.
  `Table.Sound.insert`, `Table.Sound.createIndex`: changes keep this up.
* `Table.Short`: the tables that are filled with rows of short texts. A row that is inserted is put
  into the indexes by its values and an index that is created reads them back, so it is of these
  tables that indexes cover the rows (`Table.Short.covers`).
* `Store.Reachable`: the stores that come of changes to an empty one; `Store.Reachable.sound` says
  that their tables are sound.
-/

namespace QueryEngine

theorem mem_of_lookup {β : Type} {list : List (String × β)} {name : String} {b : β}
    (h : list.lookup name = some b) : (name, b) ∈ list := by
  obtain ⟨l₁, l₂, rfl, -⟩ := List.lookup_eq_some_iff.1 h
  exact List.mem_append_right _ List.mem_cons_self

namespace Table

/-- The rows without their ids. -/
abbrev tuples (t : Table) : List Tuple := t.rows.map (·.2)

/-- What holds of every table of a store. -/
structure Sound (t : Table) : Prop where
  /-- Ids count the rows from one on. -/
  ids : ∀ (i : Nat) (row : Row), t.rows[i]? = some row → row.1 = (i : Int) + 1
  /-- Rows are encoded. -/
  encoded : ∀ row ∈ t.rows, ∃ values, t.layout.encode values = .ok row.2
  /-- Indexes are on the attributes that they are named after. -/
  indexed : ∀ e ∈ t.indexes, ∃ a, t.schema.find e.1 = .ok (e.2.column, a) ∧
    e.2.keyType = a.dataType

theorem sound_empty (layout : Layout) : (empty layout).Sound where
  ids i row h := by simp [empty] at h
  encoded := by simp [empty]
  indexed := by simp [empty]

variable {t t' : Table} {values : List Value} {rowId : RowId} {name column : String} {row : Row}

theorem exists_of_insert (h : t.insert values = .ok (rowId, t')) :
    ∃ tuple indexes, t.layout.encode values = .ok tuple ∧ rowId = (t.rows.length : Int) + 1 ∧
      addToIndexes values rowId t.indexes = .ok indexes ∧
      t' = { t with rows := t.rows ++ [(rowId, tuple)], indexes } := by
  simp only [insert, bind_eq_ok_iff, pure_eq_ok, Except.ok.injEq, Prod.mk.injEq] at h
  obtain ⟨tuple, htuple, indexes, hindexes, rfl, rfl⟩ := h
  exact ⟨tuple, indexes, htuple, rfl, hindexes, rfl⟩

/-- Every index takes the value of its attribute. -/
theorem exists_of_mem_addToIndexes {indexes indexes' : List (String × Index)}
    (h : addToIndexes values rowId indexes = .ok indexes') {e' : String × Index}
    (he : e' ∈ indexes') :
    ∃ e ∈ indexes, ∃ v k, values[e.2.column]? = some v ∧ Key.typed v e.2.keyType = .ok k ∧
      e' = (e.1, e.2.add k rowId) := by
  induction indexes generalizing indexes' with
  | nil =>
    simp only [addToIndexes, Except.ok.injEq] at h
    exact absurd (h ▸ he) List.not_mem_nil
  | cons head rest ih =>
    obtain ⟨name, index⟩ := head
    rw [addToIndexes] at h
    cases hv : values[index.column]? with
    | none => simp [hv] at h
    | some v =>
      simp only [hv, bind_eq_ok_iff, pure_eq_ok, Except.ok.injEq] at h
      obtain ⟨k, hk, rest', hrest, rfl⟩ := h
      rcases List.mem_cons.1 he with rfl | he
      · exact ⟨(name, index), List.mem_cons_self, v, k, hv, hk, rfl⟩
      · obtain ⟨e, hmem, he⟩ := ih hrest he
        exact ⟨e, List.mem_cons_of_mem _ hmem, he⟩

theorem exists_lookup_addToIndexes {indexes indexes' : List (String × Index)} {index : Index}
    (h : addToIndexes values rowId indexes = .ok indexes')
    (hindex : indexes.lookup column = some index) :
    ∃ v k, values[index.column]? = some v ∧ Key.typed v index.keyType = .ok k ∧
      indexes'.lookup column = some (index.add k rowId) := by
  induction indexes generalizing indexes' with
  | nil => cases hindex
  | cons e indexes ih =>
    rw [addToIndexes] at h
    cases hv : values[e.2.column]? with
    | none => simp [hv] at h
    | some v =>
      simp only [hv, bind_eq_ok_iff, pure_eq_ok, Except.ok.injEq] at h
      obtain ⟨k, hk, rest, hrest, rfl⟩ := h
      rw [KeyMap.lookup_cons_eq] at hindex ⊢
      by_cases hcolumn : column = e.1
      · rw [if_pos hcolumn] at hindex ⊢
        obtain rfl := Option.some.inj hindex
        exact ⟨v, k, hv, hk, rfl⟩
      · rw [if_neg hcolumn] at hindex ⊢
        exact ih hrest hindex

/-- An index finds in the bytes of a row the key that it takes from the values, if their texts are
short. -/
theorem Sound.keyOf_of_encode (hs : t.Sound) {e : String × Index} (he : e ∈ t.indexes)
    {tuple : Tuple} (htuple : t.layout.encode values = .ok tuple) (htexts : ShortTexts values)
    {v : Value} {k : Key} (hv : values[e.2.column]? = some v)
    (hk : Key.typed v e.2.keyType = .ok k) : e.2.keyOf t.layout tuple = .ok k := by
  obtain ⟨a, ha, -⟩ := hs.indexed e he
  have hdecode := Layout.decode_of_encode htuple htexts
  obtain ⟨w, hw, hfield, -⟩ := Layout.field_of_decode hdecode (Schema.getElem?_of_find ha).1
  obtain rfl : v = w := Option.some.inj (hv.symm.trans hw)
  rw [Index.keyOf, hfield, ok_bind, hk]

theorem Sound.insert (hs : t.Sound) (h : t.insert values = .ok (rowId, t')) : t'.Sound := by
  obtain ⟨tuple, indexes, htuple, rfl, hindexes, rfl⟩ := exists_of_insert h
  have hmem := @exists_of_mem_addToIndexes _ _ _ _ hindexes
  constructor
  · intro i row hrow
    rw [List.getElem?_append] at hrow
    split at hrow
    · exact hs.ids i row hrow
    · rename_i hi
      obtain ⟨hlt, hrow⟩ := List.getElem?_eq_some_iff.1 hrow
      simp only [List.length_singleton] at hlt
      obtain rfl : i = t.rows.length := by omega
      simp only [Nat.sub_self, List.getElem_cons_zero] at hrow
      rw [← hrow]
  · intro row hrow
    rcases List.mem_append.1 hrow with hrow | hrow
    · exact hs.encoded row hrow
    · obtain rfl := List.mem_singleton.1 hrow
      exact ⟨values, htuple⟩
  · intro e' he'
    obtain ⟨e, he, v, k, -, -, rfl⟩ := hmem he'
    exact hs.indexed e he

theorem exists_of_createIndex (h : t.createIndex name column = .ok t') :
    ∃ position a, t.schema.find column = .ok (position, a) ∧
      ∃ index, addRows t.layout t.rows ⟨position, a.dataType, .empty⟩ = .ok index ∧
        t' = { t with indexes := t.indexes ++ [(column, index)] } := by
  simp only [createIndex, throw_eq_error, error_bind, refuse_eq_ok_iff, bind_eq_ok_iff,
    Prod.exists, pure_eq_ok, Except.ok.injEq] at h
  obtain ⟨-, position, a, ha, index, hindex, rfl⟩ := h
  exact ⟨position, a, ha, index, hindex, rfl⟩

theorem Sound.createIndex (hs : t.Sound) (h : t.createIndex name column = .ok t') : t'.Sound := by
  obtain ⟨position, a, ha, index, hindex, rfl⟩ := exists_of_createIndex h
  obtain ⟨-, hcolumn, htype⟩ := (Index.covers_empty position a.dataType t.layout).addRows hindex
  constructor
  · exact hs.ids
  · exact hs.encoded
  · intro e he
    rcases List.mem_append.1 he with he | he
    · exact hs.indexed e he
    · obtain rfl := List.mem_singleton.1 he
      exact ⟨a, by rw [hcolumn]; exact ha, htype⟩

theorem Sound.ids_pairwise (hs : t.Sound) : (t.rows.map (·.1)).Pairwise (· < ·) := by
  apply List.pairwise_iff_getElem.2
  intro i j hi hj hij
  simp only [List.length_map] at hi hj
  have hidI := hs.ids i _ (List.getElem?_eq_getElem hi)
  have hidJ := hs.ids j _ (List.getElem?_eq_getElem hj)
  rw [List.getElem_map, List.getElem_map, hidI, hidJ]
  show (i : Int) + 1 < j + 1
  omega

/-- An index is on the attribute that it is named after. -/
theorem Sound.column_eq (hs : t.Sound) {index : Index} {position : Nat} {a : Attribute}
    (h : t.indexes.lookup column = some index) (ha : t.schema.find column = .ok (position, a)) :
    index.column = position ∧ index.keyType = a.dataType := by
  obtain ⟨b, hb, htype⟩ := hs.indexed _ (mem_of_lookup h)
  obtain ⟨hposition, rfl⟩ := Prod.mk.inj (Except.ok.inj (hb.symm.trans ha))
  exact ⟨hposition, htype⟩

/-- A row is found by its id. -/
theorem Sound.readTuple_eq (hs : t.Sound) (name : String) (h : row ∈ t.rows) :
    t.readTuple name row.1 = .ok row.2 := by
  obtain ⟨i, hi, hrow⟩ := List.mem_iff_getElem.1 h
  obtain ⟨id, tuple⟩ := row
  obtain rfl : id = (i : Int) + 1 := hs.ids i _ (by rw [List.getElem?_eq_getElem hi, hrow])
  have hposition : ((i : Int) + 1 - 1).toNat = i := by omega
  have hlow : ¬(i : Int) + 1 < 1 := by omega
  simp only [readTuple, if_neg hlow, hposition, List.getElem?_eq_getElem hi, hrow, if_true]

/-! ## Tables of short texts -/

/-- Tables that were filled with rows of short texts, so that all of them can be read back. A store
with a limit below 2 ^ 32 bytes has no others (`Store.Reachable.short`). -/
inductive Short : Table → Prop where
  | empty (layout : Layout) : Short (empty layout)
  | insert {t t' : Table} {values : List Value} {rowId : RowId} (before : Short t)
      (texts : ShortTexts values) (change : t.insert values = .ok (rowId, t')) : Short t'
  | createIndex {t t' : Table} {name column : String} (before : Short t)
      (change : t.createIndex name column = .ok t') : Short t'

namespace Short

theorem sound (h : t.Short) : t.Sound := by
  induction h with
  | empty layout => exact sound_empty layout
  | insert _ _ change ih => exact ih.insert change
  | createIndex _ change ih => exact ih.createIndex change

theorem exists_encode (h : t.Short) (hrow : row ∈ t.rows) :
    ∃ values, t.layout.encode values = .ok row.2 ∧ ShortTexts values := by
  induction h with
  | empty => exact absurd hrow List.not_mem_nil
  | insert _ texts change ih =>
    obtain ⟨tuple, _, htuple, -, -, rfl⟩ := exists_of_insert change
    rcases List.mem_append.1 hrow with hrow | hrow
    · exact ih hrow
    · obtain rfl := List.mem_singleton.1 hrow
      exact ⟨_, htuple, texts⟩
  | createIndex _ change ih =>
    obtain ⟨_, _, -, _, -, rfl⟩ := exists_of_createIndex change
    exact ih hrow

theorem isRow (h : t.Short) (hrow : row ∈ t.rows) (relation : String) :
    row.2.IsRow (t.schema.qualified relation) := by
  obtain ⟨values, hencode, htexts⟩ := h.exists_encode hrow
  exact Layout.isRow_qualified (Layout.decode_of_encode hencode htexts) relation

/-- Indexes cover the rows. -/
theorem covers (h : t.Short) : ∀ e ∈ t.indexes, e.2.Covers t.layout t.rows := by
  induction h with
  | empty => exact fun _ he => absurd he List.not_mem_nil
  | insert before texts change ih =>
    obtain ⟨tuple, _, htuple, rfl, hindexes, rfl⟩ := exists_of_insert change
    intro e' he'
    obtain ⟨e, he, v, k, hv, hk, rfl⟩ := exists_of_mem_addToIndexes hindexes he'
    exact (ih e he).add (_, tuple) (before.sound.keyOf_of_encode he htuple texts hv hk)
  | createIndex _ change ih =>
    obtain ⟨position, a, -, index, hindex, rfl⟩ := exists_of_createIndex change
    intro e he
    rcases List.mem_append.1 he with he | he
    · exact ih e he
    · obtain rfl := List.mem_singleton.1 he
      exact ((Index.covers_empty position a.dataType _).addRows hindex).1

theorem covers_of_lookup (h : t.Short) {index : Index}
    (hindex : t.indexes.lookup column = some index) : index.Covers t.layout t.rows :=
  h.covers _ (mem_of_lookup hindex)

/-- The rows can be listed in the order of any index. -/
theorem exists_ordered (h : t.Short) {index : Index}
    (hindex : t.indexes.lookup column = some index) :
    ∃ keyed, index.Ordered t.layout t.rows keyed :=
  (h.covers_of_lookup hindex).exists_ordered h.sound.ids_pairwise

end Short

end Table

namespace Store

variable {s s' : Store} {t : Table} {name : String}

/-- The stores that come of changes to an empty one. A change that is refused leaves no new
store. -/
inductive Reachable : Store → Prop where
  | empty (maxTupleSize : Nat) : Reachable { maxTupleSize }
  | createTable {s s' : Store} {name : String} {schema : Schema} (before : Reachable s)
      (change : s.createTable name schema = .ok s') : Reachable s'
  | insert {s s' : Store} {name : String} {values : List Value} {rowId : RowId}
      (before : Reachable s) (change : s.insert name values = .ok (rowId, s')) : Reachable s'
  | createIndex {s s' : Store} {name column : String} (before : Reachable s)
      (change : s.createIndex name column = .ok s') : Reachable s'

theorem mem_tables_of_table (h : s.table name = .ok t) : (name, t) ∈ s.tables := by
  unfold table at h
  split at h
  · rename_i t' hlookup
    obtain rfl := Except.ok.inj h
    exact mem_of_lookup hlookup
  · simp at h

theorem mem_setTable {e : String × Table} (h : e ∈ (s.setTable name t).tables) :
    e = (name, t) ∨ e ∈ s.tables := by
  obtain ⟨e', he', rfl⟩ := List.mem_map.1 h
  split
  · exact .inl rfl
  · exact .inr he'

theorem eq_of_createTable {schema : Schema} (h : s.createTable name schema = .ok s') :
    s' = { s with tables := s.tables ++ [(name, .empty ⟨schema, s.maxTupleSize⟩)] } := by
  rw [createTable] at h
  cases hduplicate : duplicate? [] (schema.map (·.name)) with
  | some column => simp [hduplicate] at h
  | none =>
    simp only [hduplicate, throw_eq_error, error_bind, refuse_eq_ok_iff, pure_eq_ok,
      Except.ok.injEq] at h
    exact h.2.symm

theorem exists_of_insert {values : List Value} {rowId : RowId}
    (h : s.insert name values = .ok (rowId, s')) :
    ∃ t t', s.table name = .ok t ∧ t.insert values = .ok (rowId, t') ∧ s' = s.setTable name t' := by
  simp only [insert, bind_eq_ok_iff, Prod.exists, pure_eq_ok, Except.ok.injEq, Prod.mk.injEq] at h
  obtain ⟨t, ht, rowId, t', hinsert, rfl, rfl⟩ := h
  exact ⟨t, t', ht, hinsert, rfl⟩

theorem exists_of_createIndex {column : String} (h : s.createIndex name column = .ok s') :
    ∃ t t', s.table name = .ok t ∧ t.createIndex name column = .ok t' ∧
      s' = s.setTable name t' := by
  simp only [createIndex, bind_eq_ok_iff, pure_eq_ok, Except.ok.injEq] at h
  obtain ⟨t, ht, t', hcreate, rfl⟩ := h
  exact ⟨t, t', ht, hcreate, rfl⟩

/-- The tables of a store are sound. -/
theorem Reachable.sound (h : s.Reachable) : ∀ e ∈ s.tables, e.2.Sound := by
  induction h with
  | empty => simp
  | createTable before change ih =>
    rename_i s s' name schema
    obtain rfl := eq_of_createTable change
    intro e he
    rcases List.mem_append.1 he with he | he
    · exact ih e he
    · obtain rfl := List.mem_singleton.1 he
      exact Table.sound_empty _
  | insert before change ih =>
    obtain ⟨t, t', ht, hinsert, rfl⟩ := exists_of_insert change
    intro e he
    rcases mem_setTable he with rfl | he
    · exact (ih _ (mem_tables_of_table ht)).insert hinsert
    · exact ih e he
  | createIndex before change ih =>
    obtain ⟨t, t', ht, hcreate, rfl⟩ := exists_of_createIndex change
    intro e he
    rcases mem_setTable he with rfl | he
    · exact (ih _ (mem_tables_of_table ht)).createIndex hcreate
    · exact ih e he

theorem Reachable.sound_of_table (h : s.Reachable) (ht : s.table name = .ok t) : t.Sound :=
  h.sound _ (mem_tables_of_table ht)

theorem Reachable.maxTupleSize_eq (h : s.Reachable) :
    ∀ e ∈ s.tables, e.2.layout.maxTupleSize = s.maxTupleSize := by
  induction h with
  | empty => simp
  | createTable before change ih =>
    rename_i s s' name schema
    obtain rfl := eq_of_createTable change
    intro e he
    rcases List.mem_append.1 he with he | he
    · exact ih e he
    · obtain rfl := List.mem_singleton.1 he
      rfl
  | insert before change ih =>
    obtain ⟨t, t', ht, hinsert, rfl⟩ := exists_of_insert change
    obtain ⟨_, _, -, -, -, rfl⟩ := Table.exists_of_insert hinsert
    intro e he
    rcases mem_setTable he with rfl | he
    · have hlimit := ih _ (mem_tables_of_table ht)
      exact hlimit
    · exact ih e he
  | createIndex before change ih =>
    obtain ⟨t, t', ht, hcreate, rfl⟩ := exists_of_createIndex change
    obtain ⟨_, _, -, _, -, rfl⟩ := Table.exists_of_createIndex hcreate
    intro e he
    rcases mem_setTable he with rfl | he
    · have hlimit := ih _ (mem_tables_of_table ht)
      exact hlimit
    · exact ih e he

/-- A store that limits its tuples to fewer bytes than that has short texts only. -/
theorem Reachable.short (h : s.Reachable) (hmax : s.maxTupleSize < 2 ^ 32) :
    ∀ e ∈ s.tables, e.2.Short := by
  induction h with
  | empty => simp
  | createTable before change ih =>
    obtain rfl := eq_of_createTable change
    intro e he
    rcases List.mem_append.1 he with he | he
    · exact ih hmax e he
    · obtain rfl := List.mem_singleton.1 he
      exact .empty _
  | insert before change ih =>
    obtain ⟨t, t', ht, hinsert, rfl⟩ := exists_of_insert change
    obtain ⟨tuple, _, htuple, -, -, -⟩ := Table.exists_of_insert hinsert
    intro e he
    rcases mem_setTable he with rfl | he
    · have hle := Layout.length_le_of_encode htuple
      rw [before.maxTupleSize_eq _ (mem_tables_of_table ht)] at hle
      have htexts := Layout.shortTexts_of_encode htuple (Nat.lt_of_le_of_lt hle hmax)
      exact .insert (ih hmax _ (mem_tables_of_table ht)) htexts hinsert
    · exact ih hmax e he
  | createIndex before change ih =>
    obtain ⟨t, t', ht, hcreate, rfl⟩ := exists_of_createIndex change
    intro e he
    rcases mem_setTable he with rfl | he
    · exact .createIndex (ih hmax _ (mem_tables_of_table ht)) hcreate
    · exact ih hmax e he

end Store

end QueryEngine
