import QueryEngine.Proofs.Store.Growth
import QueryEngine.Proofs.Store.Placement
import QueryEngine.Proofs.Store.RangeScan

/-!
# Row ids are good for ever

A scan reads what there was when it was opened, while single rows are read from the store as it is
now. The two are used together: what an old scan gives is looked up in a store that has grown.

* `Given.Found`, `Given.Resolves`: a store has a row under the id that was given, and the field of
  that row is the key that was given with it.
* `Cursor.pending`: all that a cursor may still give, however it is moved.
* `Cursors.Sound`: what is pending is in the store. Stores only grow, so this stays.
* `Cursors.given_resolves`: so what was given is found, and resolves if texts are short.
-/

namespace QueryEngine

/-- What scans give out: rows under their ids, and ids with the keys of an index. -/
inductive Given where
  | row (table : String) (id : RowId) (tuple : Tuple)
  | entry (table column : String) (id : RowId) (key : Value)

namespace Given

/-- The table that was scanned. -/
def table : Given → String
  | row table _ _ | entry table _ _ _ => table

/-- The store has the row that was given, or some row under the id. -/
def Found (s : Store) : Given → Prop
  | row table id tuple => s.readTuple table id = .ok tuple
  | entry table _ id _ => ∃ tuple, s.readTuple table id = .ok tuple

/-- The store has the row that was given, or a row whose field compares equal to the key. -/
def Resolves (s : Store) : Given → Prop
  | row table id tuple => s.readTuple table id = .ok tuple
  | entry table column id key => ∃ t position a tuple v, s.table table = .ok t ∧
      t.schema.find column = .ok (position, a) ∧ s.readTuple table id = .ok tuple ∧
      t.layout.field tuple position = .ok v ∧ key.compare v = .ok .eq

/-- The store has the row that was given, or the entry in its index. -/
def Kept (s : Store) : Given → Prop
  | row table id tuple => s.readTuple table id = .ok tuple
  | entry table column id key => ∃ t index k, s.table table = .ok t ∧
      t.indexes.lookup column = some index ∧ (k, id) ∈ index.entries.listing ∧ k.toValue = key

end Given

/-- A scan that was opened on a table, or on the index of one of its columns. -/
inductive Cursor where
  | rows (table : String) (scanner : RowScanner)
  | entries (table column : String) (scanner : IndexScanner)

namespace Cursor

def openRows (s : Store) (table : String) (faults : ScanFaults) : Except Error Cursor := do
  return rows table (← s.scan table faults)

def openEntries (s : Store) (table column : String) (range : KeyRange) : Except Error Cursor := do
  return entries table column (← s.indexScan table column range)

/-- What a cursor gives when it is asked for one more, if anything. -/
def given? : Cursor → Option Given
  | rows table scanner =>
    match scanner.next.1 with
    | .ok (some row) => some (.row table row.1 row.2)
    | .ok none | .error _ => none
  | entries table column scanner =>
    scanner.next.1.map fun e => .entry table column e.1 e.2

def next : Cursor → Cursor
  | rows table scanner => rows table scanner.next.2
  | entries table column scanner => entries table column scanner.next.2

/-- Scans over an index only go on. -/
def rewind : Cursor → Cursor
  | rows table scanner => rows table scanner.rewind.2
  | entries table column scanner => entries table column scanner

def close : Cursor → Cursor
  | rows table scanner => rows table scanner.close
  | entries table column scanner => entries table column scanner.close

/-- All that a cursor may still give, however it is moved. -/
def pending : Cursor → List Given
  | rows table scanner =>
    (scanner.rows ++ scanner.unread).map fun row => .row table row.1 row.2
  | entries table column scanner =>
    scanner.unread.map fun e => .entry table column e.2 e.1.toValue

end Cursor

/-- A store with the scans opened on it so far. -/
structure Cursors where
  store : Store
  cursors : List Cursor

/-- What is asked of a store and of its scans, which go by the order in which they were opened. -/
inductive Cursors.Event where
  | call (visit : Visit) (c : Call)
  | scan (table : String) (faults : ScanFaults)
  | indexScan (table column : String) (range : KeyRange)
  | next (cursor : Nat)
  | rewind (cursor : Nat)
  | close (cursor : Nat)

namespace Cursors

/-- One more scan, unless it is refused. -/
def opened (w : Cursors) : Except Error Cursor → Cursors
  | .ok cursor => { w with cursors := w.cursors ++ [cursor] }
  | .error _ => w

/-- What comes of an event. -/
def step (w : Cursors) : Event → Cursors
  | .call visit c => { w with store := w.store.after visit c }
  | .scan table faults => w.opened (Cursor.openRows w.store table faults)
  | .indexScan table column range => w.opened (Cursor.openEntries w.store table column range)
  | .next i => { w with cursors := w.cursors.modify i (·.next) }
  | .rewind i => { w with cursors := w.cursors.modify i (·.rewind) }
  | .close i => { w with cursors := w.cursors.modify i (·.close) }

/-- What an event makes one of the scans give. -/
def given? (w : Cursors) : Event → Option Given
  | .next i => w.cursors[i]?.bind (·.given?)
  | _ => none

/-- What comes of some events, from an empty store with a limit on its tuples. -/
def replay (limit : Nat) (events : List Event) : Cursors :=
  events.foldl step ⟨{ maxTupleSize := limit }, []⟩

end Cursors

/-! ## One scan -/

namespace RowScanner

variable {scanner : RowScanner} {row : Row}

theorem mem_unread_of_next (h : scanner.next.1 = .ok (some row)) : row ∈ scanner.unread := by
  unfold next at h
  split at h
  · cases h
  · split at h
    · cases h
    · split at h
      · cases h
      · rename_i hunread
        obtain rfl := Option.some.inj (Except.ok.inj h)
        exact hunread ▸ List.mem_cons_self

theorem rows_next (scanner : RowScanner) : scanner.next.2.rows = scanner.rows := by
  unfold next
  split
  · rfl
  · split
    · rfl
    · split <;> rfl

theorem unread_rewind_subset (scanner : RowScanner) :
    scanner.rewind.2.unread ⊆ scanner.rows ++ scanner.unread := by
  unfold rewind
  simp only
  split
  · exact List.subset_append_right _ _
  · exact List.subset_append_left _ _

theorem unread_next_suffix (scanner : RowScanner) : scanner.next.2.unread <:+ scanner.unread := by
  unfold next
  split
  · exact List.suffix_refl _
  · split
    · exact List.suffix_refl _
    · split
      · exact List.suffix_refl _
      · rename_i row rest hunread
        exact hunread ▸ List.suffix_cons row rest

end RowScanner

namespace Cursor

variable {cursor : Cursor} {given : Given} {s : Store}

theorem mem_pending_of_given (h : cursor.given? = some given) : given ∈ cursor.pending := by
  cases cursor with
  | rows table scanner =>
    simp only [given?] at h
    split at h
    · rename_i row hrow
      obtain rfl := Option.some.inj h
      exact List.mem_map_of_mem (List.mem_append_right _ (scanner.mem_unread_of_next hrow))
    · cases h
    · cases h
  | entries table column scanner =>
    simp only [given?, scanner.next_eq.1, Option.map_map] at h
    obtain ⟨e, he, rfl⟩ := Option.map_eq_some_iff.1 h
    exact List.mem_map_of_mem (List.mem_of_mem_head? he)

theorem pending_next (cursor : Cursor) : cursor.next.pending ⊆ cursor.pending := by
  cases cursor with
  | rows table scanner =>
    refine List.map_subset _ (List.append_subset.2 ⟨?_, ?_⟩)
    · rw [scanner.rows_next]
      exact List.subset_append_left _ _
    · exact List.Subset.trans scanner.unread_next_suffix.subset (List.subset_append_right _ _)
  | entries table column scanner =>
    rw [next, pending, pending, scanner.next_eq.2]
    exact List.map_subset _ (List.tail_suffix _).subset

theorem pending_rewind (cursor : Cursor) : cursor.rewind.pending ⊆ cursor.pending := by
  cases cursor with
  | rows table scanner =>
    refine List.map_subset _ (List.append_subset.2 ⟨?_, scanner.unread_rewind_subset⟩)
    rw [scanner.rows_rewind]
    exact List.subset_append_left _ _
  | entries table column scanner => exact List.Subset.refl _

theorem pending_close (cursor : Cursor) : cursor.close.pending ⊆ cursor.pending := by
  cases cursor with
  | rows table scanner => exact List.Subset.refl _
  | entries table column scanner => exact List.nil_subset _

/-- What a new scan over rows has to give are rows of the table. -/
theorem kept_of_openRows {table : String} {faults : ScanFaults} (hs : s.Reachable)
    (h : openRows s table faults = .ok cursor) : ∀ given ∈ cursor.pending, given.Kept s := by
  simp only [openRows, Store.scan, bind_eq_ok_iff, pure_eq_ok, Except.ok.injEq] at h
  obtain ⟨_, ⟨t, ht, rfl⟩, rfl⟩ := h
  intro given hgiven
  obtain ⟨row, hrow, rfl⟩ := List.mem_map.1 hgiven
  rw [RowScanner.ofRows, List.mem_append, or_self] at hrow
  show s.readTuple table row.1 = .ok row.2
  rw [Store.readTuple, ht, ok_bind, (hs.sound_of_table ht).readTuple_eq table hrow]

/-- What a new scan over an index has to give are entries of the index. -/
theorem kept_of_openEntries {table column : String} {range : KeyRange}
    (h : openEntries s table column range = .ok cursor) :
    ∀ given ∈ cursor.pending, given.Kept s := by
  simp only [openEntries, bind_eq_ok_iff, pure_eq_ok, Except.ok.injEq] at h
  obtain ⟨scanner, hopen, rfl⟩ := h
  obtain ⟨t, index, ht, hindex, hscan⟩ := Store.exists_of_indexScan hopen
  intro given hgiven
  obtain ⟨e, he, rfl⟩ := List.mem_map.1 hgiven
  exact ⟨t, index, e.1, ht, hindex, Index.mem_listing_of_scan hscan e he, rfl⟩

end Cursor

namespace Given

variable {s s' : Store} {given : Given}

/-! ## What is in a store -/

/-- Every entry of an index is that of a row. -/
theorem Kept.found (h : given.Kept s) (hs : s.Reachable) : given.Found s := by
  cases given with
  | row table id tuple => exact h
  | entry table column id key =>
    obtain ⟨t, index, k, ht, hindex, hentry, -⟩ := h
    obtain ⟨listed, hlists⟩ := hs.exists_lists ht hindex
    rw [← hlists.listing_eq] at hentry
    obtain ⟨e, he, heq⟩ := List.mem_map.1 hentry
    obtain ⟨-, rfl⟩ := Prod.mk.inj heq
    have hrow : e.2 ∈ t.rows := hlists.perm.mem_iff.1 (List.mem_map_of_mem he)
    refine ⟨e.2.2, ?_⟩
    rw [Store.readTuple, ht, ok_bind, (hs.sound_of_table ht).readTuple_eq table hrow]

/-- Where texts are short, it is under the key of the row's field. -/
theorem Kept.resolves (h : given.Kept s)
    (hshort : ∀ t, s.table given.table = .ok t → t.Short) : given.Resolves s := by
  cases given with
  | row table id tuple => exact h
  | entry table column id key =>
    obtain ⟨t, index, k, ht, hindex, hentry, rfl⟩ := h
    have ht' := hshort t ht
    obtain ⟨a, ha, -⟩ := ht'.sound.indexed _ (mem_of_lookup hindex)
    obtain ⟨row, hrow, rfl, hkey⟩ := (ht'.covers_of_lookup hindex).mem_listing.1 hentry
    obtain ⟨v, hv, htyped⟩ := bind_eq_ok_iff.1 hkey
    refine ⟨t, index.column, a, row.2, v, ht, ha, ?_, hv, Key.toValue_compare htyped⟩
    rw [Store.readTuple, ht, ok_bind, ht'.sound.readTuple_eq table hrow]

/-! ## Stores that grow -/

/-- What is in a store is in all later ones. -/
theorem Kept.grows (h : given.Kept s) (hs : s.Reachable) (hgrows : s.Grows s') :
    given.Kept s' := by
  cases given with
  | row table id tuple => exact hgrows.readTuple_eq hs h
  | entry table column id key =>
    obtain ⟨t, index, k, ht, hindex, hentry, hkey⟩ := h
    obtain ⟨t', ht', hgrown⟩ := hgrows.exists_table ht
    obtain ⟨index', hindex', hsub⟩ := hgrown.exists_index hindex
    exact ⟨t', index', k, ht', hindex', hsub hentry, hkey⟩

/-- What resolves does so in all later stores. -/
theorem Resolves.grows (h : given.Resolves s) (hs : s.Reachable) (hgrows : s.Grows s') :
    given.Resolves s' := by
  cases given with
  | row table id tuple => exact hgrows.readTuple_eq hs h
  | entry table column id key =>
    obtain ⟨t, position, a, tuple, v, ht, ha, hread, hv, hkey⟩ := h
    obtain ⟨t', ht', hgrown⟩ := hgrows.exists_table ht
    refine ⟨t', position, a, tuple, v, ht', ?_, hgrows.readTuple_eq hs hread, ?_, hkey⟩
    · rwa [Table.schema, hgrown.layout]
    · rwa [hgrown.layout]

end Given

namespace Cursors

variable {w : Cursors} {event : Event} {given : Given} {limit : Nat}

/-- The store comes of changes, and has what is pending. -/
structure Sound (w : Cursors) : Prop where
  reachable : w.store.Reachable
  kept : ∀ cursor ∈ w.cursors, ∀ given ∈ cursor.pending, given.Kept w.store

theorem store_opened (w : Cursors) (cursor? : Except Error Cursor) :
    (w.opened cursor?).store = w.store := by
  cases cursor? <;> rfl

theorem grows_step (h : w.store.Reachable) (event : Event) :
    w.store.Grows (w.step event).store := by
  cases event with
  | call visit c => exact h.grows_after visit c
  | scan table faults => exact (store_opened w _).symm ▸ .refl
  | indexScan table column range => exact (store_opened w _).symm ▸ .refl
  | next i => exact .refl
  | rewind i => exact .refl
  | close i => exact .refl

theorem Sound.opened {cursor? : Except Error Cursor} (h : w.Sound)
    (hcursor : ∀ cursor, cursor? = .ok cursor → ∀ given ∈ cursor.pending, given.Kept w.store) :
    (w.opened cursor?).Sound := by
  cases cursor? with
  | error e => exact h
  | ok cursor =>
    exact ⟨h.reachable, List.forall_mem_append.2
      ⟨h.kept, List.forall_mem_singleton.2 (hcursor cursor rfl)⟩⟩

theorem mem_modify {α : Type} {list : List α} {f : α → α} {i : Nat} {a : α}
    (h : a ∈ list.modify i f) : a ∈ list ∨ ∃ b ∈ list, f b = a := by
  obtain ⟨j, hj⟩ := List.mem_iff_getElem?.1 h
  rw [List.getElem?_modify] at hj
  obtain ⟨b, hb, hfb⟩ := Option.map_eq_some_iff.1 hj
  split at hfb
  · exact .inr ⟨b, List.mem_of_getElem? hb, hfb⟩
  · exact .inl (hfb ▸ List.mem_of_getElem? hb)

/-- Moving a scan makes nothing pending that was not before. -/
theorem Sound.moved (h : w.Sound) {move : Cursor → Cursor}
    (hmove : ∀ cursor, (move cursor).pending ⊆ cursor.pending) (i : Nat) :
    Sound { w with cursors := w.cursors.modify i move } := by
  refine ⟨h.reachable, fun cursor hcursor given hgiven => ?_⟩
  rcases mem_modify hcursor with hold | ⟨old, hold, rfl⟩
  · exact h.kept cursor hold given hgiven
  · exact h.kept old hold given (hmove old hgiven)

theorem Sound.step (h : w.Sound) (event : Event) : (w.step event).Sound := by
  cases event with
  | call visit c =>
    have hgrows := h.reachable.grows_after visit c
    exact ⟨hgrows.reachable h.reachable, fun cursor hcursor given hgiven =>
      (h.kept cursor hcursor given hgiven).grows h.reachable hgrows⟩
  | scan table faults =>
    exact h.opened fun cursor hcursor => Cursor.kept_of_openRows h.reachable hcursor
  | indexScan table column range =>
    exact h.opened fun cursor hcursor => Cursor.kept_of_openEntries hcursor
  | next i => exact h.moved Cursor.pending_next i
  | rewind i => exact h.moved Cursor.pending_rewind i
  | close i => exact h.moved Cursor.pending_close i

theorem Sound.foldl_step (h : w.Sound) (events : List Event) :
    (events.foldl Cursors.step w).Sound := by
  induction events generalizing w with
  | nil => exact h
  | cons event events ih => exact ih (h.step event)

theorem sound_replay (limit : Nat) (events : List Event) : (replay limit events).Sound :=
  Sound.foldl_step ⟨.empty limit, by simp⟩ events

theorem Sound.kept_of_given (h : w.Sound) (hgiven : w.given? event = some given) :
    given.Kept w.store := by
  cases event with
  | next i =>
    obtain ⟨cursor, hcursor, hread⟩ := Option.bind_eq_some_iff.1 hgiven
    exact h.kept cursor (List.mem_of_getElem? hcursor) given (Cursor.mem_pending_of_given hread)
  | call _ _ | scan _ _ | indexScan _ _ _ | rewind _ | close _ => cases hgiven

theorem grows_foldl_step (h : w.Sound) (events : List Event) :
    w.store.Grows (events.foldl step w).store := by
  induction events generalizing w with
  | nil => exact .refl
  | cons event events ih => exact (grows_step h.reachable event).trans (ih (h.step event))

theorem replay_append (limit : Nat) (before later : List Event) :
    replay limit (before ++ later) = later.foldl step (replay limit before) :=
  List.foldl_append

/-- **What a scan has given is good for ever**: whenever the scan was opened, and whatever happened
since then and happens later, the row is found under the id that was given with it, and under an id
that was given with a key some row. The field of that row compares equal to the key if the texts
that the table has by then have fewer than 2 ^ 32 bytes each. -/
theorem given_resolves (before : List Event)
    (h : (replay limit before).given? event = some given) :
    (∀ later, given.Found (replay limit (before ++ event :: later)).store) ∧
    ((∀ t, (replay limit before).store.table given.table = .ok t → t.Short) →
      ∀ later, given.Resolves (replay limit (before ++ event :: later)).store) := by
  have hsound := sound_replay limit before
  have hkept := hsound.kept_of_given h
  have hgrows : ∀ later,
      (replay limit before).store.Grows (replay limit (before ++ event :: later)).store := by
    intro later
    rw [replay_append]
    exact grows_foldl_step hsound _
  refine ⟨fun later => ?_, fun hshort later => ?_⟩
  · exact (hkept.grows hsound.reachable (hgrows later)).found
      ((hgrows later).reachable hsound.reachable)
  · exact (hkept.resolves hshort).grows hsound.reachable (hgrows later)

/-- A table with a row, a scan over its rows and one over an index on them. -/
def indexed (visit : Visit) : List Event :=
  [.call visit (.createTable "t" [.integer "n"]), .call visit (.insert "t" [.integer 7]),
    .call visit (.createIndex "t" "n"), .scan "t" .never, .indexScan "t" "n" .all,
    .call visit (.insert "t" [.integer 3])]

/-- Both scans give the row of before, and it is still found after one more was inserted. -/
theorem given_resolves_indexed : ∃ visit,
    (replay 64 (indexed visit)).given? (.next 0) = some (.row "t" 1 ⟨[7, 0, 0, 0]⟩) ∧
      (replay 64 (indexed visit)).given? (.next 1) = some (.entry "t" "n" 1 (.integer 7)) ∧
      (replay 64 (indexed visit ++ [.next 0, .call visit (.insert "t" [.integer 5])])
        ).store.readTuple "t" 1 = .ok ⟨[7, 0, 0, 0]⟩ ∧
      (Given.entry "t" "n" 1 (.integer 7)).Resolves
        (replay 64 (indexed visit ++ [.next 1, .close 1])).store := by
  let visit : Visit := ⟨id, .refl⟩
  have hrow : (replay 64 (indexed visit)).given? (.next 0) = some (.row "t" 1 ⟨[7, 0, 0, 0]⟩) := by
    rfl
  have hentry : (replay 64 (indexed visit)).given? (.next 1) =
      some (.entry "t" "n" 1 (.integer 7)) := by
    obtain ⟨scanner, hcursor, hunread⟩ : ∃ scanner,
        (replay 64 (indexed visit)).cursors[1]? = some (.entries "t" "n" scanner) ∧
        scanner.unread = [(.integer 7, 1)] := ⟨_, by rfl, by rfl⟩
    rw [given?, hcursor, Option.bind_some, Cursor.given?, scanner.next_eq.1, hunread]
    rfl
  have hshort : ∀ t, (replay 64 (indexed visit)).store.table "t" = .ok t → t.Short := fun t ht =>
    (sound_replay 64 _).reachable.short (by decide) _ (Store.mem_tables_of_table ht)
  exact ⟨visit, hrow, hentry, (given_resolves (indexed visit) hrow).1 _,
    (given_resolves (indexed visit) hentry).2 hshort _⟩

/-- The calls that fill a table whose index has a text for which the row is read to be empty. -/
def overlong (visit : Visit) (bytes : List UInt8) : List Event :=
  [.call visit (.createTable "l" [.text "a" 0]), .call visit (.insert "l" [.text []]),
    .call visit (.createTable "r" [.text "s" (2 ^ 32)]), .call visit (.createIndex "r" "s")] ++
  [.call visit (.insert "r" [.text bytes]), .indexScan "r" "s" .all]

/-- An index gives a text of 2 ^ 32 bytes as its key, and the row that is found is empty. -/
theorem given_not_always_resolves :
    ¬∀ (limit : Nat) (before : List Event) (event : Event) (given : Given),
      (replay limit before).given? event = some given →
      ∀ later, given.Resolves (replay limit (before ++ event :: later)).store := by
  intro hall
  obtain ⟨bytes, hlength⟩ : ∃ bytes : List UInt8, bytes.length = 2 ^ 32 :=
    ⟨List.replicate (2 ^ 32) 0, List.length_replicate⟩
  let visit : Visit := ⟨id, .refl⟩
  have hinsert : Call.change .beforeOverlong (.insert "r" [.text bytes]) =
      .ok (some 1, .overlong bytes) := by
    rw [Call.change, Store.insert_beforeOverlong (Nat.le_of_eq hlength)]
    rfl
  have hreplay : replay (4 + 2 ^ 32) (overlong visit bytes) = ⟨.overlong bytes,
      [.entries "r" "s" ⟨(Index.overlong bytes).entries, .all, none, false⟩]⟩ := by
    have hbefore : replay (4 + 2 ^ 32) [.call visit (.createTable "l" [.text "a" 0]),
        .call visit (.insert "l" [.text []]), .call visit (.createTable "r" [.text "s" (2 ^ 32)]),
        .call visit (.createIndex "r" "s")] = ⟨.beforeOverlong, []⟩ := rfl
    rw [overlong, replay_append, hbefore, List.foldl_cons, step,
      Store.reachable_beforeOverlong.after_eq visit hinsert]
    rfl
  have hgiven : (replay (4 + 2 ^ 32) (overlong visit bytes)).given? (.next 0) =
      some (.entry "r" "s" 1 (.text bytes)) := by
    rw [hreplay, given?, List.getElem?_cons_zero, Option.bind_some, Cursor.given?,
      IndexScanner.next_eq _ |>.1]
    rfl
  have hresolves := hall _ _ _ _ hgiven []
  rw [replay_append, hreplay] at hresolves
  obtain ⟨t, position, a, tuple, v, ht, ha, hread, hv, hkey⟩ := hresolves
  obtain rfl : .overlong bytes = t := Except.ok.inj ht
  obtain rfl : 0 = position := (Prod.mk.inj (Except.ok.inj ha)).1
  obtain rfl : ⟨Value.encode (.text bytes)⟩ = tuple := Except.ok.inj hread
  obtain rfl : .text [] = v := Except.ok.inj ((Layout.field_long hlength _ _ _).symm.trans hv)
  have hempty : bytes = [] := Std.LawfulEqOrd.eq_of_compare (Except.ok.inj hkey)
  rw [hempty] at hlength
  exact absurd hlength (by decide)

end Cursors

end QueryEngine
