import Mathlib.Data.List.Nodup
import QueryEngine.Proofs.Store.Table

/-!
# Changes in place

`Store.insert` and the other changes make a new store, so that one that is refused has nothing to
undo. A store that is kept in memory is written to instead, step by step, and what was written
before an error stays written; and it visits the indexes of a table in whatever order a hash table
has them.

* `Table.Edit`, `Store.Edit`: such writing, which keeps the state that an error was found in.
* `Table.insertInPlace`: makes the keys for all indexes before it writes anything.
* `Call.run_edit`: on the stores that come of changes, a call in place writes what the change comes
  to, and nothing at all if that is refused, whatever the order in which indexes are visited.
-/

namespace QueryEngine

/-- An order in which the indexes of a table are visited. -/
structure Visit where
  order : List (String × Index) → List (String × Index)
  perm : ∀ indexes, (order indexes).Perm indexes

namespace Table

variable {α : Type}

/-- What is done to a table step by step. What was done before an error stays done. -/
abbrev Edit (α : Type) : Type := EStateM Error Table α

/-- The key of a row of values in an index. -/
def keyFor (values : List Value) (e : String × Index) : Except Error (String × Key) := do
  match values[e.2.column]? with
  | some v => return (e.1, ← Key.typed v e.2.keyType)
  | none => throw (.internal (.fieldOutOfBounds e.2.column values.length))

/-- Puts a row under a key of the index that the key was made for. -/
def putKey (rowId : RowId) (key : String × Key) : Edit Unit :=
  modify fun t => { t with
    indexes := t.indexes.map fun e => if e.1 = key.1 then (e.1, e.2.add key.2 rowId) else e }

/-- Adds a row at the end and returns its id. The keys of all indexes are made before anything is
written. -/
def insertInPlace (visit : Visit) (values : List Value) : Edit RowId := do
  let t ← get
  let tuple ← MonadExcept.ofExcept (t.layout.encode values)
  let keys ← MonadExcept.ofExcept ((visit.order t.indexes).mapM (keyFor values))
  let rowId : RowId := t.rows.length + 1
  modify fun t => { t with rows := t.rows ++ [(rowId, tuple)] }
  forM keys (putKey rowId)
  return rowId

/-- Builds an index aside, and then adds it to the table. -/
def createIndexInPlace (name column : String) : Edit Unit := do
  let t ← get
  if (t.indexes.lookup column).isSome then
    throw (.invalidArgument (.indexExists name column))
  let (position, found) ← MonadExcept.ofExcept (t.schema.find column)
  let index ← MonadExcept.ofExcept
    (addRows t.layout t.rows ⟨position, found.dataType, .empty⟩)
  modify fun t => { t with indexes := t.indexes ++ [(column, index)] }

end Table

namespace Store

variable {α : Type}

/-- What is done to a store step by step. -/
abbrev Edit (α : Type) : Type := EStateM Error Store α

/-- Writes to the table called `name`. What was written to it before an error stays written. -/
def editTable (name : String) (edit : Table.Edit α) : Edit α := do
  let t ← MonadExcept.ofExcept ((← get).table name)
  match edit.run t with
  | .ok a t =>
    modify (·.setTable name t)
    return a
  | .error e t =>
    modify (·.setTable name t)
    throw e

/-- Adds a table. -/
def createTableInPlace (name : String) (schema : Schema) : Edit Unit := do
  if let some column := duplicate? [] (schema.map (·.name)) then
    throw (.invalidArgument (.duplicateAttribute column name))
  if ((← get).tables.lookup name).isSome then
    throw (.tableAlreadyExists name)
  modify fun s => { s with tables := s.tables ++ [(name, .empty ⟨schema, s.maxTupleSize⟩)] }

end Store

/-- What can be asked of a store. -/
inductive Call where
  | createTable (name : String) (schema : Schema)
  | insert (name : String) (values : List Value)
  | createIndex (name column : String)
  deriving DecidableEq, Repr

namespace Call

/-- What a call comes to: the id of the row that was inserted, if it was an insertion, and the new
store. -/
def change (s : Store) : Call → Except Error (Option RowId × Store)
  | createTable name schema => do return (none, ← s.createTable name schema)
  | insert name values => do
    let (rowId, s) ← s.insert name values
    return (some rowId, s)
  | createIndex name column => do return (none, ← s.createIndex name column)

/-- A call in place. -/
def edit (visit : Visit) : Call → Store.Edit (Option RowId)
  | createTable name schema => do
    Store.createTableInPlace name schema
    return none
  | insert name values => do return some (← Store.editTable name (Table.insertInPlace visit values))
  | createIndex name column => do
    Store.editTable name (Table.createIndexInPlace name column)
    return none

end Call

/-- A change written to where it was asked for: nothing is written if it is refused. -/
def written {σ α : Type} (s : σ) : Except Error (α × σ) → EStateM.Result Error σ α
  | .ok (a, s') => .ok a s'
  | .error e => .error e s

/-! ## Writing -/

@[simp] theorem run_ofExcept_ok {σ α : Type} (a : α) (s : σ) :
    (MonadExcept.ofExcept (.ok a) : EStateM Error σ α).run s = .ok a s := rfl

@[simp] theorem run_ofExcept_error {σ α : Type} (e : Error) (s : σ) :
    (MonadExcept.ofExcept (.error e : Except Error α) : EStateM Error σ α).run s = .error e s := rfl

/-! ## Lists -/

theorem lookup_of_mem {β : Type} {list : List (String × β)} {name : String} {b : β}
    (hnodup : (list.map (·.1)).Nodup) (h : (name, b) ∈ list) : list.lookup name = some b := by
  induction list with
  | nil => simp at h
  | cons head list ih =>
    rw [List.map_cons, List.nodup_cons] at hnodup
    rw [List.lookup_cons]
    rcases List.mem_cons.1 h with rfl | h
    · simp
    · have hne : (name == head.1) = false := by
        apply beq_eq_false_iff_ne.2
        rintro rfl
        exact hnodup.1 (List.mem_map_of_mem (f := (·.1)) h)
      rw [hne]
      exact ih hnodup.2 h

namespace Table

variable {t : Table} {values : List Value} {tuple : Tuple} {e : String × Index} {rowId : RowId}

/-- In a table whose indexes are on its attributes, a row that was encoded has a key in an index
unless its value there is not finite. -/
theorem keyFor_eq (hs : t.Sound) (he : e ∈ t.indexes) (h : t.layout.encode values = .ok tuple) :
    (∃ k, keyFor values e = .ok (e.1, k)) ∨ keyFor values e = .error .nonFiniteReal := by
  obtain ⟨a, ha, htype⟩ := hs.indexed e he
  obtain ⟨hlen, hd, -⟩ := Layout.eq_of_encode h
  have hattr : t.layout.schema[e.2.column]? = some a := (Schema.getElem?_of_find ha).1
  have hlt : e.2.column < values.length := hlen ▸ (List.getElem?_eq_some_iff.1 hattr).1
  have hv := List.getElem?_eq_getElem hlt
  have ht : values[e.2.column].dataType = e.2.keyType := by
    have := congrArg (·[e.2.column]?) hd
    simp only [List.getElem?_map, hv, hattr, Option.map_some] at this
    rw [Option.some.inj this, htype]
  cases hf : values[e.2.column].isFinite with
  | true =>
    obtain ⟨k, hk⟩ := Key.exists_typed ht hf
    exact .inl ⟨k, by simp [keyFor, hv, hk]⟩
  | false =>
    have hk := Key.typed_eq_nonFiniteReal ht hf
    exact .inr (by simp [keyFor, hv, hk])

theorem addToIndexes_eq (values : List Value) (rowId : RowId) (indexes : List (String × Index)) :
    addToIndexes values rowId indexes =
      indexes.mapM fun e => (keyFor values e).map fun key => (e.1, e.2.add key.2 rowId) := by
  induction indexes with
  | nil => rfl
  | cons e indexes ih =>
    rw [addToIndexes, List.mapM_cons, ih, keyFor]
    cases values[e.2.column]? with
    | none => rfl
    | some v =>
      cases hk : Key.typed v e.2.keyType with
      | error err => simp [hk, Except.map]
      | ok k => simp [hk, Except.map]

/-- Every key is put into the index that it was made for. -/
theorem forM_putKey (rowId : RowId) {keys : List (String × Key)} (hnodup : (keys.map (·.1)).Nodup)
    (t : Table) :
    (forM keys (putKey rowId)).run t = .ok ⟨⟩ { t with
      indexes := t.indexes.map fun e =>
        (e.1, ((keys.lookup e.1).map (e.2.add · rowId)).getD e.2) } := by
  induction keys generalizing t with
  | nil => simp [EStateM.run, pure, EStateM.pure]
  | cons key keys ih =>
    rw [List.map_cons, List.nodup_cons] at hnodup
    have hnone : keys.lookup key.1 = none := by
      apply List.lookup_eq_none_iff.2
      intro d hd
      apply bne_iff_ne.2
      intro heq
      exact hnodup.1 (heq ▸ List.mem_map_of_mem (f := (·.1)) hd)
    have hput : (putKey rowId key).run t = .ok ⟨⟩ { t with
        indexes := t.indexes.map fun e => if e.1 = key.1 then (e.1, e.2.add key.2 rowId) else e } :=
      rfl
    rw [List.forM_cons, EStateM.run_bind, hput]
    simp only [ih hnodup.2, List.map_map]
    congr 2
    apply List.map_congr_left
    intro e _
    rw [Function.comp_apply, List.lookup_cons]
    by_cases he : e.1 = key.1
    · simp [he, hnone]
    · rw [if_neg he, beq_eq_false_iff_ne.2 he]

/-- A row that was encoded has a key in every index, or it is refused by one. -/
theorem exists_key_or (hs : t.Sound) (h : t.layout.encode values = .ok tuple) :
    (∃ key : String × Index → Key, ∀ e ∈ t.indexes, keyFor values e = .ok (e.1, key e)) ∨
      ∃ e ∈ t.indexes, keyFor values e = .error .nonFiniteReal := by
  by_cases hkeys : ∀ e ∈ t.indexes, ∃ k, keyFor values e = .ok (e.1, k)
  · refine .inl ⟨fun e => ((keyFor values e).toOption.map (·.2)).getD (.text []), fun e he => ?_⟩
    obtain ⟨k, hk⟩ := hkeys e he
    simp [hk, Except.toOption]
  · push Not at hkeys
    obtain ⟨e, he, hne⟩ := hkeys
    exact .inr ⟨e, he, (keyFor_eq hs he h).resolve_left (not_exists.2 hne)⟩

variable {visit : Visit} {key : String × Index → Key}

theorem mem_order (visit : Visit) {indexes : List (String × Index)} :
    e ∈ visit.order indexes ↔ e ∈ indexes :=
  (visit.perm indexes).mem_iff

theorem insert_of_keys (h : t.layout.encode values = .ok tuple)
    (hkey : ∀ e ∈ t.indexes, keyFor values e = .ok (e.1, key e)) :
    t.insert values = .ok ((t.rows.length : Int) + 1, { t with
      rows := t.rows ++ [((t.rows.length : Int) + 1, tuple)]
      indexes := t.indexes.map fun e =>
        (e.1, e.2.add (key e) ((t.rows.length : Int) + 1)) }) := by
  have hadded : addToIndexes values ((t.rows.length : Int) + 1) t.indexes =
      .ok (t.indexes.map fun e => (e.1, e.2.add (key e) ((t.rows.length : Int) + 1))) := by
    rw [addToIndexes_eq]
    exact mapM_eq_ok fun e he => by rw [hkey e he]; rfl
  simp only [insert, h, hadded, ok_bind, pure_eq_ok]

theorem run_insertInPlace_of_keys (hnodup : (t.indexes.map (·.1)).Nodup)
    (h : t.layout.encode values = .ok tuple)
    (hkey : ∀ e ∈ t.indexes, keyFor values e = .ok (e.1, key e)) :
    (insertInPlace visit values).run t = .ok ((t.rows.length : Int) + 1) { t with
      rows := t.rows ++ [((t.rows.length : Int) + 1, tuple)]
      indexes := t.indexes.map fun e =>
        (e.1, e.2.add (key e) ((t.rows.length : Int) + 1)) } := by
  have hmade : (visit.order t.indexes).mapM (keyFor values) =
      .ok ((visit.order t.indexes).map fun e => (e.1, key e)) :=
    mapM_eq_ok fun e he => hkey e ((mem_order visit).1 he)
  have hnames : (((visit.order t.indexes).map fun e => (e.1, key e)).map (·.1)).Nodup := by
    rw [List.map_map]
    exact ((visit.perm t.indexes).map _).nodup_iff.2 hnodup
  have hlookup : ∀ e ∈ t.indexes,
      ((visit.order t.indexes).map fun e => (e.1, key e)).lookup e.1 = some (key e) :=
    fun e he => lookup_of_mem hnames (List.mem_map.2 ⟨e, (mem_order visit).2 he, rfl⟩)
  simp only [insertInPlace, h, hmade, EStateM.run_bind, EStateM.run_get, EStateM.run_modify,
    EStateM.run_pure, run_ofExcept_ok, forM_putKey _ hnames]
  congr 2
  apply List.map_congr_left
  intro e he
  rw [hlookup e he]
  rfl

/-- All indexes that refuse a row refuse it for the same reason, so it does not matter which of them
is visited first. -/
theorem mapM_keyFor_of_refused (hs : t.Sound) (h : t.layout.encode values = .ok tuple)
    (he : e ∈ t.indexes) (hrefused : keyFor values e = .error .nonFiniteReal)
    {indexes : List (String × Index)} (hperm : indexes.Perm t.indexes) :
    indexes.mapM (keyFor values) = .error .nonFiniteReal := by
  refine mapM_eq_error ⟨e, hperm.mem_iff.2 he, hrefused⟩ fun d hd => ?_
  exact (keyFor_eq hs (hperm.mem_iff.1 hd) h).imp_left fun ⟨k, hk⟩ => ⟨_, hk⟩

theorem insert_of_refused (hs : t.Sound) (h : t.layout.encode values = .ok tuple)
    (he : e ∈ t.indexes) (hrefused : keyFor values e = .error .nonFiniteReal) :
    t.insert values = .error .nonFiniteReal := by
  have hadded : addToIndexes values ((t.rows.length : Int) + 1) t.indexes =
      .error .nonFiniteReal := by
    rw [addToIndexes_eq]
    refine mapM_eq_error ⟨e, he, by rw [hrefused]; rfl⟩ fun d hd => ?_
    rcases keyFor_eq hs hd h with ⟨k, hk⟩ | hk
    · exact .inl ⟨_, by rw [hk]; rfl⟩
    · exact .inr (by rw [hk]; rfl)
  simp only [insert, h, hadded, ok_bind, error_bind]

/-- Inserting in place comes to the same as inserting, in whatever order indexes are visited. -/
theorem run_insertInPlace (hs : t.Sound) (hnodup : (t.indexes.map (·.1)).Nodup) (visit : Visit)
    (values : List Value) : (insertInPlace visit values).run t = written t (t.insert values) := by
  cases htuple : t.layout.encode values with
  | error err =>
    simp only [insertInPlace, insert, htuple, EStateM.run_bind, EStateM.run_get, run_ofExcept_error,
      error_bind, written]
  | ok tuple =>
    rcases exists_key_or hs htuple with ⟨key, hkey⟩ | ⟨e, he, hrefused⟩
    · rw [run_insertInPlace_of_keys hnodup htuple hkey, insert_of_keys htuple hkey, written]
    · rw [insert_of_refused hs htuple he hrefused, written]
      simp only [insertInPlace, htuple, EStateM.run_bind, EStateM.run_get, run_ofExcept_ok,
        run_ofExcept_error, mapM_keyFor_of_refused hs htuple he hrefused (visit.perm t.indexes)]

theorem run_createIndexInPlace (t : Table) (name column : String) :
    (createIndexInPlace name column).run t =
      written t ((t.createIndex name column).map fun t' => (⟨⟩, t')) := by
  unfold createIndexInPlace createIndex
  by_cases hexists : (t.indexes.lookup column).isSome = true
  · simp [hexists, written, Except.map]
  · cases hfound : t.schema.find column with
    | error e => simp [hexists, hfound, written, Except.map]
    | ok found =>
      cases hindex : addRows t.layout t.rows ⟨found.1, found.2.dataType, .empty⟩ with
      | error e => simp [hexists, hfound, hindex, written, Except.map]
      | ok index => simp [hexists, hfound, hindex, written, Except.map]

end Table

/-! ## Names -/

theorem lookup_eq_none_iff {β : Type} {list : List (String × β)} {name : String} :
    list.lookup name = none ↔ name ∉ list.map (·.1) := by
  rw [List.lookup_eq_none_iff, List.mem_map]
  constructor
  · rintro h ⟨e, he, rfl⟩
    simpa using h e he
  · intro h e he
    exact bne_iff_ne.2 fun heq => h ⟨e, he, heq.symm⟩

theorem nodup_append_singleton {β : Type} {list : List (String × β)} {name : String} {b : β}
    (hnodup : (list.map (·.1)).Nodup) (h : list.lookup name = none) :
    ((list ++ [(name, b)]).map (·.1)).Nodup := by
  rw [List.map_append, List.map_singleton]
  refine List.nodup_append.2 ⟨hnodup, List.nodup_singleton _, fun a ha b hb heq => ?_⟩
  rw [heq, List.mem_singleton.1 hb] at ha
  exact lookup_eq_none_iff.1 h ha

namespace Table

variable {t t' : Table} {values : List Value} {rowId : RowId} {name column : String}

theorem names_addToIndexes {indexes indexes' : List (String × Index)}
    (h : addToIndexes values rowId indexes = .ok indexes') :
    indexes'.map (·.1) = indexes.map (·.1) := by
  induction indexes generalizing indexes' with
  | nil =>
    simp only [addToIndexes, Except.ok.injEq] at h
    rw [← h]
  | cons e indexes ih =>
    rw [addToIndexes] at h
    cases hv : values[e.2.column]? with
    | none => simp [hv] at h
    | some v =>
      simp only [hv, bind_eq_ok_iff, pure_eq_ok, Except.ok.injEq] at h
      obtain ⟨k, -, rest, hrest, rfl⟩ := h
      rw [List.map_cons, List.map_cons, ih hrest]

theorem names_insert (h : t.insert values = .ok (rowId, t')) :
    t'.indexes.map (·.1) = t.indexes.map (·.1) := by
  obtain ⟨tuple, indexes, -, -, hindexes, rfl⟩ := exists_of_insert h
  exact names_addToIndexes hindexes

theorem nodup_createIndex (hnodup : (t.indexes.map (·.1)).Nodup)
    (h : t.createIndex name column = .ok t') : (t'.indexes.map (·.1)).Nodup := by
  obtain ⟨position, a, -, index, -, rfl⟩ := exists_of_createIndex h
  have hnone : t.indexes.lookup column = none := by
    simp only [createIndex, throw_eq_error, error_bind, refuse_eq_ok_iff] at h
    exact Option.not_isSome_iff_eq_none.1 h.1
  exact nodup_append_singleton hnodup hnone

end Table

namespace Store

variable {s s' : Store} {t t' : Table} {name : String}

@[simp] theorem names_setTable (s : Store) (name : String) (t : Table) :
    (s.setTable name t).tables.map (·.1) = s.tables.map (·.1) := by
  rw [setTable, List.map_map]
  apply List.map_congr_left
  intro e _
  by_cases h : e.1 = name <;> simp [h]

theorem lookup_of_createTable {schema : Schema} (h : s.createTable name schema = .ok s') :
    s.tables.lookup name = none := by
  rw [createTable] at h
  cases hduplicate : duplicate? [] (schema.map (·.name)) with
  | some column => simp [hduplicate] at h
  | none =>
    simp only [hduplicate, throw_eq_error, error_bind, refuse_eq_ok_iff] at h
    exact Option.not_isSome_iff_eq_none.1 h.1

/-- Tables have different names. -/
theorem Reachable.names_nodup (h : s.Reachable) : (s.tables.map (·.1)).Nodup := by
  induction h with
  | empty => exact List.nodup_nil
  | createTable before change ih =>
    obtain rfl := eq_of_createTable change
    exact nodup_append_singleton ih (lookup_of_createTable change)
  | insert before change ih =>
    obtain ⟨t, t', -, -, rfl⟩ := exists_of_insert change
    rwa [names_setTable]
  | createIndex before change ih =>
    obtain ⟨t, t', -, -, rfl⟩ := exists_of_createIndex change
    rwa [names_setTable]

/-- The indexes of a table are on different attributes. -/
theorem Reachable.index_names_nodup (h : s.Reachable) :
    ∀ e ∈ s.tables, (e.2.indexes.map (·.1)).Nodup := by
  induction h with
  | empty => simp
  | createTable before change ih =>
    obtain rfl := eq_of_createTable change
    intro e he
    rcases List.mem_append.1 he with he | he
    · exact ih e he
    · obtain rfl := List.mem_singleton.1 he
      exact List.nodup_nil
  | insert before change ih =>
    obtain ⟨t, t', ht, hinsert, rfl⟩ := exists_of_insert change
    intro e he
    rcases mem_setTable he with rfl | he
    · rw [Table.names_insert hinsert]
      exact ih _ (mem_tables_of_table ht)
    · exact ih e he
  | createIndex before change ih =>
    obtain ⟨t, t', ht, hcreate, rfl⟩ := exists_of_createIndex change
    intro e he
    rcases mem_setTable he with rfl | he
    · exact Table.nodup_createIndex (ih _ (mem_tables_of_table ht)) hcreate
    · exact ih e he

/-! ## Calls in place -/

/-- Putting a table back leaves the store as it is. -/
theorem setTable_self (hnodup : (s.tables.map (·.1)).Nodup) (ht : s.table name = .ok t) :
    s.setTable name t = s := by
  have hsame : ∀ e ∈ s.tables, (if e.1 = name then (name, t) else e) = e := by
    intro e he
    split
    · rename_i hname
      have hlookup := lookup_of_mem hnodup he
      rw [table, ← hname, hlookup] at ht
      exact Prod.ext hname.symm (Except.ok.inj ht).symm
    · rfl
  rw [setTable, List.map_congr_left hsame, List.map_id']

theorem run_editTable {α : Type} {edit : Table.Edit α} {x : Except Error (α × Table)}
    (hnodup : (s.tables.map (·.1)).Nodup) (ht : s.table name = .ok t)
    (h : edit.run t = written t x) :
    (editTable name edit).run s = written s (x.map fun p => (p.1, s.setTable name p.2)) := by
  have hget : (editTable name edit).run s =
      (match edit.run t with
        | .ok a t => .ok a (s.setTable name t)
        | .error e t => .error e (s.setTable name t)) := by
    simp only [editTable, EStateM.run_bind, EStateM.run_get, ht, run_ofExcept_ok]
    cases edit.run t <;> rfl
  rw [hget, h]
  cases x with
  | error e => simp only [written, Except.map, setTable_self hnodup ht]
  | ok p => rfl

end Store

/-- A call in place writes what the change comes to, and nothing if that is refused. -/
theorem Call.run_edit {s : Store} (hs : s.Reachable) (visit : Visit) (c : Call) :
    (c.edit visit).run s = written s (c.change s) := by
  cases c with
  | createTable name schema =>
    have hrun : (Store.createTableInPlace name schema).run s =
        written s ((s.createTable name schema).map fun s' => (⟨⟩, s')) := by
      unfold Store.createTableInPlace Store.createTable
      cases hduplicate : Store.duplicate? [] (schema.map (·.name)) with
      | some column => simp [written, Except.map]
      | none =>
        by_cases hexists : (s.tables.lookup name).isSome = true
        · simp [hexists, written, Except.map]
        · simp [hexists, written, Except.map]
    simp only [edit, change, EStateM.run_bind, hrun]
    cases s.createTable name schema <;> rfl
  | insert name values =>
    simp only [edit, change, Store.insert, EStateM.run_bind]
    cases ht : s.table name with
    | error e => simp [Store.editTable, ht, written]
    | ok t =>
      have hmem := Store.mem_tables_of_table ht
      rw [Store.run_editTable hs.names_nodup ht
        (Table.run_insertInPlace (hs.sound_of_table ht) (hs.index_names_nodup _ hmem) visit values)]
      cases hinsert : t.insert values with
      | error e => simp [hinsert, written, Except.map]
      | ok p => simp [hinsert, written, Except.map]
  | createIndex name column =>
    simp only [edit, change, Store.createIndex, EStateM.run_bind]
    cases ht : s.table name with
    | error e => simp [Store.editTable, ht, written]
    | ok t =>
      rw [Store.run_editTable hs.names_nodup ht (Table.run_createIndexInPlace t name column)]
      cases hcreate : t.createIndex name column with
      | error e => simp [hcreate, written, Except.map]
      | ok t' => simp [hcreate, written, Except.map]

end QueryEngine
