import Mathlib.Data.List.Forall2
import Mathlib.Data.List.Induction
import QueryEngine.Proofs.Store.Edit

/-!
# Sessions

A session is a store with all that was asked of it since it was empty, and what it answered.

* `Index.Exact`: an index holds the rows of its table, each once, and is the one that would be
  built of them now.
* `Session.replay`: a session that comes of some calls, each of which visits indexes in an order of
  its own.
* `Session.Sound`: rows are the accepted ones in their order, under the ids from one on.
* `Session.call_of_change_error`: a call that is refused leaves everything as it was.
-/

namespace QueryEngine

/-! ## Exact indexes -/

/-- What the index on the attribute called `column` is worth to a table. -/
structure Index.Exact (index : Index) (t : Table) (column : String) : Prop where
  found : ∃ a, t.schema.find column = .ok (index.column, a) ∧ index.keyType = a.dataType
  /-- Under a key are the ids of the rows whose field has that key. -/
  mem_iff : ∀ k id, id ∈ (index.entries.get? k).getD [] ↔
    ∃ row ∈ t.rows, row.1 = id ∧ index.keyOf t.layout row.2 = .ok k
  ascending : ∀ k ids, index.entries.get? k = some ids → ids ≠ [] ∧ ids.Pairwise (· < ·)
  /-- Every row is there, and once. -/
  once : (index.entries.listing.map (·.2)).Perm (t.rows.map (·.1))
  /-- It does not matter when the index was created: one built of all rows now is the same. -/
  rebuilt : Table.addRows t.layout t.rows ⟨index.column, index.keyType, .empty⟩ = .ok index

namespace Table

variable {layout : Layout} {rows : List Row} {t : Table} {column : String} {index : Index}

theorem exists_addRows (h : ∀ row ∈ rows, ∃ k, index.keyOf layout row.2 = .ok k) :
    ∃ index', addRows layout rows index = .ok index' := by
  induction rows generalizing index with
  | nil => exact ⟨index, rfl⟩
  | cons row rows ih =>
    obtain ⟨k, hk⟩ := h row List.mem_cons_self
    obtain ⟨v, hv, hkey⟩ := bind_eq_ok_iff.1 hk
    have hkeys : ∀ r ∈ rows, ∃ l, (index.add k row.1).keyOf layout r.2 = .ok l :=
      fun r hr => h r (List.mem_cons_of_mem row hr)
    obtain ⟨index', hrest⟩ := ih hkeys
    exact ⟨index', by rw [addRows, hv, ok_bind, hkey, ok_bind, hrest]⟩

/-- What an index holds is determined by the rows. -/
theorem addRows_of_covers (h : index.Covers layout rows) :
    addRows layout rows ⟨index.column, index.keyType, .empty⟩ = .ok index := by
  have hkeys : ∀ row ∈ rows, ∃ k,
      (⟨index.column, index.keyType, .empty⟩ : Index).keyOf layout row.2 = .ok k := h.exists_key
  obtain ⟨index', hrows⟩ := exists_addRows hkeys
  obtain ⟨hcovers, hcolumn, htype⟩ := (Index.covers_empty _ _ layout).addRows hrows
  have hids : ∀ k, index'.idsOf layout rows k = index.idsOf layout rows k := by
    intro k
    simp only [Index.idsOf, Index.keyOf, hcolumn, htype]
  have hentries : index'.entries = index.entries := by
    apply KeyMap.ext_of_get?
    intro k
    have hsame : (index'.entries.get? k).getD [] = (index.entries.get? k).getD [] := by
      rw [hcovers.get?_eq, h.get?_eq, List.nil_append, hids]
    have hne := hcovers.get?_ne k
    have hne' := h.get?_ne k
    cases hk : index'.entries.get? k <;> cases hk' : index.entries.get? k <;>
      simp_all
  rw [hrows]
  cases index
  cases index'
  simp only at hcolumn htype hentries
  rw [hcolumn, htype, hentries]

/-- The indexes of tables of short texts are exact. -/
theorem Short.exact (hshort : t.Short) (h : t.indexes.lookup column = some index) :
    index.Exact t column where
  found := hshort.sound.indexed _ (mem_of_lookup h)
  mem_iff k id := by
    rw [← KeyMap.mem_listing]
    exact (hshort.covers_of_lookup h).mem_listing
  ascending k ids hk := by
    have hcovers := hshort.covers_of_lookup h
    have hids := hcovers.get?_eq k
    rw [hk, Option.getD_some] at hids
    refine ⟨fun hnil => hcovers.get?_ne k (hnil ▸ hk), ?_⟩
    rw [hids]
    exact hshort.sound.ids_pairwise.sublist (List.filter_sublist.map _)
  once := by
    obtain ⟨keyed, hordered⟩ := hshort.exists_ordered h
    rw [← hordered.listing_eq, List.map_map]
    have := hordered.perm.map (·.1)
    rwa [List.map_map] at this
  rebuilt := addRows_of_covers (hshort.covers_of_lookup h)

/-- So an index does not depend on when it was created. -/
theorem eq_of_exact {t' : Table} {index' : Index} (h : index.Exact t column)
    (h' : index'.Exact t' column) (hlayout : t.layout = t'.layout) (hrows : t.rows = t'.rows) :
    index = index' := by
  obtain ⟨a, ha, htype⟩ := h.found
  obtain ⟨a', ha', htype'⟩ := h'.found
  have hfind : t.schema.find column = t'.schema.find column := by rw [schema, schema, hlayout]
  obtain ⟨hcolumn, rfl⟩ := Prod.mk.inj (Except.ok.inj (ha.symm.trans (hfind.trans ha')))
  have hrebuilt := h.rebuilt
  rw [hlayout, hrows, hcolumn, htype, ← htype', h'.rebuilt] at hrebuilt
  exact (Except.ok.inj hrebuilt).symm

/-- Ids count the rows from one on. -/
theorem Sound.ids_eq (hs : t.Sound) :
    t.rows.map (·.1) = (List.range t.rows.length).map fun i : Nat => (i : Int) + 1 := by
  apply List.ext_getElem
  · simp
  · intro i hi _
    rw [List.length_map] at hi
    simpa using hs.ids i _ (List.getElem?_eq_getElem hi)

end Table

/-! ## Tables under their names -/

namespace Store

variable {s s' : Store} {t : Table} {name other : String} {schema : Schema}

theorem lookup_map_replace {β : Type} (list : List (String × β)) (name other : String) (b : β) :
    (list.map fun e => if e.1 = name then (name, b) else e).lookup other =
      if other = name then (list.lookup name).map fun _ => b else list.lookup other := by
  induction list with
  | nil => simp
  | cons e list ih =>
    obtain ⟨first, b'⟩ := e
    rw [List.map_cons, KeyMap.lookup_cons_eq, KeyMap.lookup_cons_eq]
    by_cases hfirst : first = name
    · subst hfirst
      rw [if_pos rfl, KeyMap.lookup_cons_eq, ih]
      by_cases ho : other = first <;> simp [ho]
    · rw [if_neg hfirst, KeyMap.lookup_cons_eq, ih, if_neg (Ne.symm hfirst)]
      by_cases ho : other = name
      · simp [ho, Ne.symm hfirst]
      · simp [ho]

theorem table_setTable_self (t' : Table) (h : s.table name = .ok t) :
    (s.setTable name t').table name = .ok t' := by
  unfold table at h ⊢
  rw [setTable, lookup_map_replace, if_pos rfl]
  cases hl : s.tables.lookup name with
  | none => simp [hl] at h
  | some _ => rfl

theorem table_setTable_of_ne (s : Store) (t' : Table) (h : other ≠ name) :
    (s.setTable name t').table other = s.table other := by
  unfold table
  rw [setTable, lookup_map_replace, if_neg h]

theorem table_createTable_self (h : s.createTable name schema = .ok s') :
    s'.table name = .ok (.empty ⟨schema, s.maxTupleSize⟩) := by
  have hnone := lookup_of_createTable h
  obtain rfl := eq_of_createTable h
  simp [table, List.lookup_append, hnone]

theorem table_createTable_of_ne (h : s.createTable name schema = .ok s') (hne : other ≠ name) :
    s'.table other = s.table other := by
  obtain rfl := eq_of_createTable h
  simp [table, List.lookup_append, List.lookup_cons, beq_eq_false_iff_ne.2 hne]

end Store

/-! ## Sessions -/

/-- A store with the calls made so far and what they returned, oldest first. -/
structure Session where
  store : Store
  log : List (Call × Except Error (Option RowId))

namespace Session

/-- An empty store, with a limit on its tuples. -/
def start (limit : Nat) : Session := ⟨{ maxTupleSize := limit }, []⟩

/-- One more call. The store is as the call leaves it, also when it fails. -/
def call (session : Session) (visit : Visit) (c : Call) : Session :=
  match (c.edit visit).run session.store with
  | .ok answer store => ⟨store, session.log ++ [(c, .ok answer)]⟩
  | .error e store => ⟨store, session.log ++ [(c, .error e)]⟩

/-- The session that comes of some calls. -/
def replay (limit : Nat) (calls : List (Visit × Call)) : Session :=
  calls.foldl (fun session c => session.call c.1 c.2) (start limit)

/-- The row that a call put into the table called `name`, with the id that it returned. -/
def acceptedBy (name : String) : Call × Except Error (Option RowId) → Option (RowId × List Value)
  | (.insert table values, .ok (some rowId)) => if table = name then some (rowId, values) else none
  | _ => none

/-- The rows that were accepted for the table called `name`, with the ids returned. -/
def accepted (session : Session) (name : String) : List (RowId × List Value) :=
  session.log.filterMap (acceptedBy name)

variable {session : Session} {limit : Nat} {visit : Visit} {c : Call} {name : String}

theorem replay_append_singleton (limit : Nat) (calls : List (Visit × Call)) (c : Visit × Call) :
    replay limit (calls ++ [c]) = (replay limit calls).call c.1 c.2 :=
  List.foldl_append

/-- A call that is refused is noted, and nothing else happens. -/
theorem call_of_change_error {e : Error} (hs : session.store.Reachable)
    (h : c.change session.store = .error e) :
    session.call visit c = ⟨session.store, session.log ++ [(c, .error e)]⟩ := by
  simp only [call, c.run_edit hs visit, h, written]

theorem call_of_change_ok {answer : Option RowId} {store : Store} (hs : session.store.Reachable)
    (h : c.change session.store = .ok (answer, store)) :
    session.call visit c = ⟨store, session.log ++ [(c, .ok answer)]⟩ := by
  simp only [call, c.run_edit hs visit, h, written]

/-- A row of a table is an accepted one, encoded. -/
def Keeps (t : Table) (entry : RowId × List Value) (row : Row) : Prop :=
  row.1 = entry.1 ∧ t.layout.encode entry.2 = .ok row.2

/-- What holds of a session after any calls. -/
structure Sound (limit : Nat) (session : Session) : Prop where
  reachable : session.store.Reachable
  limit_eq : session.store.maxTupleSize = limit
  /-- The rows of a table are those that were accepted for it, in the order in which they were. -/
  rows : ∀ name t, session.store.table name = .ok t →
    List.Forall₂ (Keeps t) (session.accepted name) t.rows
  /-- No rows were accepted for a table that there is not. -/
  accepted_eq_nil : ∀ name e, session.store.table name = .error e → session.accepted name = []

theorem sound_start (limit : Nat) : (start limit).Sound limit where
  reachable := .empty limit
  limit_eq := rfl
  rows name t h := by simp [start, Store.table] at h
  accepted_eq_nil _ _ _ := rfl

theorem accepted_append (session : Session) (name : String)
    (entry : Call × Except Error (Option RowId)) (store : Store) :
    accepted ⟨store, session.log ++ [entry]⟩ name =
      session.accepted name ++ (acceptedBy name entry).toList := by
  rw [accepted, List.filterMap_append, List.filterMap_cons]
  cases acceptedBy name entry <;> rfl

theorem accepted_append_none {entry : Call × Except Error (Option RowId)}
    (h : acceptedBy name entry = none) (store : Store) :
    accepted ⟨store, session.log ++ [entry]⟩ name = session.accepted name := by
  rw [accepted_append, h, Option.toList_none, List.append_nil]

theorem Sound.call_error {e : Error} (h : session.Sound limit)
    (hc : c.change session.store = .error e) : (session.call visit c).Sound limit := by
  have hnone : ∀ name, acceptedBy name (c, .error e) = none := fun name => by cases c <;> rfl
  rw [call_of_change_error h.reachable hc]
  refine ⟨h.reachable, h.limit_eq, fun name t ht => ?_, fun name e ht => ?_⟩
  · rw [accepted_append_none (hnone name)]
    exact h.rows name t ht
  · rw [accepted_append_none (hnone name)]
    exact h.accepted_eq_nil name e ht

theorem Sound.createTable {schema : Schema} {store : Store} (h : session.Sound limit)
    (hc : session.store.createTable name schema = .ok store) :
    Sound limit ⟨store, session.log ++ [(.createTable name schema, .ok none)]⟩ := by
  have hnone : ∀ other, acceptedBy other (.createTable name schema, .ok none) = none :=
    fun other => rfl
  refine ⟨.createTable h.reachable hc, ?_, fun other t ht => ?_, fun other e ht => ?_⟩
  · rw [Store.eq_of_createTable hc]
    exact h.limit_eq
  · rw [accepted_append_none (hnone other)]
    by_cases ho : other = name
    · subst ho
      have hmissing : session.store.table other = .error (.tableNotFound other) := by
        rw [Store.table, Store.lookup_of_createTable hc]
      rw [Store.table_createTable_self hc] at ht
      obtain rfl := Except.ok.inj ht
      rw [h.accepted_eq_nil other _ hmissing]
      exact .nil
    · rw [Store.table_createTable_of_ne hc ho] at ht
      exact h.rows other t ht
  · rw [accepted_append_none (hnone other)]
    by_cases ho : other = name
    · rw [ho, Store.table_createTable_self hc] at ht
      cases ht
    · rw [Store.table_createTable_of_ne hc ho] at ht
      exact h.accepted_eq_nil other e ht

theorem Sound.insert {values : List Value} {rowId : RowId} {store : Store}
    (h : session.Sound limit) (hc : session.store.insert name values = .ok (rowId, store)) :
    Sound limit ⟨store, session.log ++ [(.insert name values, .ok (some rowId))]⟩ := by
  obtain ⟨t, t', ht, hinsert, rfl⟩ := Store.exists_of_insert hc
  obtain ⟨tuple, indexes, htuple, -, -, ht'⟩ := Table.exists_of_insert hinsert
  refine ⟨.insert h.reachable hc, h.limit_eq, fun other u hu => ?_, fun other e hu => ?_⟩
  · rw [accepted_append]
    by_cases ho : other = name
    · subst ho
      rw [Store.table_setTable_self t' ht] at hu
      obtain rfl := Except.ok.inj hu
      rw [acceptedBy, if_pos rfl, Option.toList_some, ht']
      exact List.rel_append (h.rows other t ht) (.cons ⟨rfl, htuple⟩ .nil)
    · rw [Store.table_setTable_of_ne _ _ ho] at hu
      rw [acceptedBy, if_neg (Ne.symm ho), Option.toList_none, List.append_nil]
      exact h.rows other u hu
  · rw [accepted_append]
    by_cases ho : other = name
    · rw [ho, Store.table_setTable_self t' ht] at hu
      cases hu
    · rw [Store.table_setTable_of_ne _ _ ho] at hu
      rw [acceptedBy, if_neg (Ne.symm ho), Option.toList_none, List.append_nil]
      exact h.accepted_eq_nil other e hu

theorem Sound.createIndex {column : String} {store : Store} (h : session.Sound limit)
    (hc : session.store.createIndex name column = .ok store) :
    Sound limit ⟨store, session.log ++ [(.createIndex name column, .ok none)]⟩ := by
  obtain ⟨t, t', ht, hcreate, rfl⟩ := Store.exists_of_createIndex hc
  obtain ⟨_, _, -, index, -, ht'⟩ := Table.exists_of_createIndex hcreate
  have hnone : ∀ other, acceptedBy other (.createIndex name column, .ok none) = none :=
    fun other => rfl
  refine ⟨.createIndex h.reachable hc, h.limit_eq, fun other u hu => ?_, fun other e hu => ?_⟩
  · rw [accepted_append_none (hnone other)]
    by_cases ho : other = name
    · subst ho
      rw [Store.table_setTable_self t' ht] at hu
      obtain rfl := Except.ok.inj hu
      rw [ht']
      exact h.rows other t ht
    · rw [Store.table_setTable_of_ne _ _ ho] at hu
      exact h.rows other u hu
  · rw [accepted_append_none (hnone other)]
    by_cases ho : other = name
    · rw [ho, Store.table_setTable_self t' ht] at hu
      cases hu
    · rw [Store.table_setTable_of_ne _ _ ho] at hu
      exact h.accepted_eq_nil other e hu

theorem Sound.call (h : session.Sound limit) (visit : Visit) (c : Call) :
    (session.call visit c).Sound limit := by
  cases hc : c.change session.store with
  | error e => exact h.call_error hc
  | ok p =>
    rw [call_of_change_ok h.reachable hc]
    cases c with
    | createTable name schema =>
      simp only [Call.change, bind_eq_ok_iff, pure_eq_ok, Except.ok.injEq] at hc
      obtain ⟨store, hstore, rfl⟩ := hc
      exact h.createTable hstore
    | insert name values =>
      simp only [Call.change, bind_eq_ok_iff, pure_eq_ok, Except.ok.injEq] at hc
      obtain ⟨q, hq, rfl⟩ := hc
      exact h.insert hq
    | createIndex name column =>
      simp only [Call.change, bind_eq_ok_iff, pure_eq_ok, Except.ok.injEq] at hc
      obtain ⟨store, hstore, rfl⟩ := hc
      exact h.createIndex hstore

theorem sound_replay (limit : Nat) (calls : List (Visit × Call)) :
    (replay limit calls).Sound limit := by
  induction calls using List.reverseRecOn with
  | nil => exact sound_start limit
  | append_singleton calls c ih =>
    rw [replay_append_singleton]
    exact ih.call c.1 c.2

/-- The indexes of a session's tables are exact. -/
theorem Sound.exact (h : session.Sound limit) (hlimit : limit < 2 ^ 32) {t : Table}
    {column : String} {index : Index} (ht : session.store.table name = .ok t)
    (hindex : (column, index) ∈ t.indexes) : index.Exact t column := by
  have hmem := Store.mem_tables_of_table ht
  have hshort : t.Short := h.reachable.short (h.limit_eq ▸ hlimit) _ hmem
  exact hshort.exact (lookup_of_mem (h.reachable.index_names_nodup _ hmem) hindex)

/-- **What is kept up, whatever a store was asked.** The rows of a table are those that were
accepted for it, in their order, and have the ids from one on. Its indexes are exact, whenever they
were created. A call that fails leaves the store as it was, and no call depends on the order in
which indexes are visited. -/
theorem replay_exact (hlimit : limit < 2 ^ 32) (calls : List (Visit × Call)) :
    (∀ name t, (replay limit calls).store.table name = .ok t →
      t.rows.map (·.1) = (List.range t.rows.length).map (fun i : Nat => (i : Int) + 1) ∧
      List.Forall₂ (Keeps t) ((replay limit calls).accepted name) t.rows ∧
      ∀ column index, (column, index) ∈ t.indexes → index.Exact t column ∧
        ∀ calls' name' t' index', (replay limit calls').store.table name' = .ok t' →
          t'.layout = t.layout → t'.rows = t.rows → (column, index') ∈ t'.indexes →
          index' = index) ∧
    (∀ visit c e store, (Call.edit visit c).run (replay limit calls).store = .error e store →
      store = (replay limit calls).store) ∧
    ∀ visit visit' c, (Call.edit visit c).run (replay limit calls).store =
      (Call.edit visit' c).run (replay limit calls).store := by
  have hsound := sound_replay limit calls
  refine ⟨fun name t ht => ⟨(hsound.reachable.sound_of_table ht).ids_eq, hsound.rows name t ht,
    fun column index hindex => ?_⟩, fun visit c e store hrun => ?_, fun visit visit' c => ?_⟩
  · have hexact := hsound.exact hlimit ht hindex
    refine ⟨hexact, fun calls' name' t' index' ht' hlayout hrows hindex' => ?_⟩
    exact Table.eq_of_exact ((sound_replay limit calls').exact hlimit ht' hindex') hexact hlayout
      hrows
  · rw [c.run_edit hsound.reachable visit] at hrun
    cases hc : c.change (replay limit calls).store with
    | error e' =>
      rw [hc] at hrun
      exact (EStateM.Result.error.inj hrun).2.symm
    | ok p =>
      rw [hc] at hrun
      cases hrun
  · rw [c.run_edit hsound.reachable visit, c.run_edit hsound.reachable visit']

/-- Both zeros, an index from before them and one from between them, and a row that an index
refuses. -/
def zeros : List (Visit × Call) :=
  [.createTable "t" [.real "x", .integer "n"], .createIndex "t" "x",
    .insert "t" [.real (.zero true), .integer 7], .createIndex "t" "n",
    .insert "t" [.real .nan, .integer 8], .insert "t" [.real (.zero false), .integer 7]].map
    (⟨List.reverse, List.reverse_perm⟩, ·)

theorem replay_exact_zeros : ∃ t index, (replay 64 zeros).store.table "t" = .ok t ∧
    t.rows.length = 2 ∧ ("x", index) ∈ t.indexes ∧ index.Exact t "x" ∧
    index.entries.get? (.real .zero) = some [1, 2] := by
  obtain ⟨t, ht, hrows, index, hindex, hids⟩ : ∃ t, (replay 64 zeros).store.table "t" = .ok t ∧
      t.rows.length = 2 ∧ ∃ index, ("x", index) ∈ t.indexes ∧
      index.entries.get? (.real .zero) = some [1, 2] :=
    ⟨_, by rfl, by rfl, _, List.mem_cons_self, by rfl⟩
  have hlimit : 64 < 2 ^ 32 := by decide
  have hexact := (((replay_exact hlimit zeros).1 "t" t ht).2.2 "x" index hindex).1
  exact ⟨t, index, ht, hrows, hindex, hexact, hids⟩

end Session

end QueryEngine
