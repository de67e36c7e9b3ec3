import QueryEngine.Proofs.Key.Map
import QueryEngine.Proofs.Outcome
import QueryEngine.Proofs.Pairs
import QueryEngine.Store.Table

/-!
# What indexes hold, and what their scanners give

* `IndexScanner.next_eq`: a scanner gives the entries that are unread one by one. Its cursor is at
  one key of the index, but what is unread is a list.
* `Index.Holds`: an index holds each row once, under some key, and `Index.Holds.exists_listing`
  says that its entries are these rows in ascending order of the keys, then of the ids.
* `Index.Covers`: an index holds each row under the key of its field, and `Index.Covers.add` says
  that adding a row keeps this up.
* `Index.Covers.exists_ordered`: so the rows can be put into the order of the index.
-/

namespace QueryEngine

/-- The row ids of a map with the keys that they are under, key after key. -/
def KeyMap.listing (m : KeyMap (List RowId)) : List (Key × RowId) :=
  m.entries.flatMap fun e => e.2.map (e.1, ·)

theorem KeyMap.filter_listing (m : KeyMap (List RowId)) (p : Key → Bool) :
    m.listing.filter (p ·.1) = (m.entries.filter (p ·.1)).flatMap fun e => e.2.map (e.1, ·) := by
  rw [listing, List.filter_flatMap]
  induction m.entries with
  | nil => rfl
  | cons e entries ih =>
    rw [List.flatMap_cons, ih]
    cases hp : p e.1 with
    | true =>
      have hall : (e.2.map (e.1, ·)).filter (p ·.1) = e.2.map (e.1, ·) :=
        List.filter_eq_self.2 (by simp [hp])
      rw [hall, List.filter_cons_of_pos (by exact hp), List.flatMap_cons]
    | false =>
      have hnone : (e.2.map (e.1, ·)).filter (p ·.1) = [] :=
        List.filter_eq_nil_iff.2 (by simp [hp])
      rw [hnone, List.filter_cons_of_neg (by simp [hp]), List.nil_append]

theorem KeyMap.mem_listing {m : KeyMap (List RowId)} {k : Key} {id : RowId} :
    (k, id) ∈ m.listing ↔ id ∈ (m.get? k).getD [] := by
  simp only [listing, List.mem_flatMap, List.mem_map, Prod.mk.injEq]
  constructor
  · rintro ⟨e, he, _, hid, rfl, rfl⟩
    rw [KeyMap.get?_eq_some_iff.2 he]
    exact hid
  · intro hid
    cases hk : m.get? k with
    | none => simp [hk] at hid
    | some ids =>
      rw [hk] at hid
      exact ⟨(k, ids), KeyMap.get?_eq_some_iff.1 hk, id, hid, rfl, rfl⟩

/-! ## Scanners -/

namespace IndexScanner

/-- The entries still to be given. -/
def unread (s : IndexScanner) : List (Key × RowId) :=
  if s.done then []
  else
    ((s.cursor.map fun c => c.2.map (c.1, ·)).getD []) ++
      s.entries.listing.filter (s.ahead.contains ·.1)

/-- Once all ids of the current key are given, what is unread are the keys ahead. -/
theorem unread_of_idle {s : IndexScanner} (hdone : ¬s.done = true)
    (h : ∀ k id ids, s.cursor = some (k, id :: ids) → False) :
    s.unread = s.entries.listing.filter (s.ahead.contains ·.1) := by
  have hcursor : (s.cursor.map fun c => c.2.map (c.1, ·)).getD [] = [] := by
    cases hc : s.cursor with
    | none => rfl
    | some c =>
      obtain ⟨k, ids⟩ := c
      cases ids with
      | nil => rfl
      | cons id ids => exact (h k id ids hc).elim
  rw [unread, if_neg hdone, hcursor, List.nil_append]

/-- A scanner gives the entries that are unread one by one. -/
theorem next_eq (s : IndexScanner) :
    s.next.1 = s.unread.head?.map (fun e => (e.2, e.1.toValue)) ∧
      s.next.2.unread = s.unread.tail := by
  fun_induction next s with
  | case1 s hdone => simp [unread, hdone]
  | case2 s hdone k id ids hcursor => simp [unread, hdone, hcursor, ahead]
  | case3 s hdone hfirst hidle =>
    have hunread : s.unread = [] := by
      rw [unread_of_idle hdone hidle, KeyMap.filter_listing, KeyMap.filter_of_firstIn?_none hfirst]
      rfl
    rw [hunread]
    simp [unread]
  | case4 s hdone k ids hfirst hlt hidle ih =>
    have hunread : IndexScanner.unread { s with interval := s.ahead, cursor := some (k, ids) } =
        s.unread := by
      rw [unread_of_idle hdone hidle, KeyMap.filter_listing, KeyMap.filter_of_firstIn? hfirst,
        List.flatMap_cons, ← KeyMap.filter_listing, unread, if_neg hdone]
      rfl
    rwa [hunread] at ih

end IndexScanner

/-! ## Indexes -/

namespace Index

variable {index : Index} {layout : Layout} {rows : List Row} {k : Key}

/-- The index holds rows under keys, each row once, in the order in which they came. -/
def Holds (index : Index) (placed : List (Key × Row)) : Prop :=
  ∀ k, (index.entries.get? k).getD [] = (placed.filter (·.1 == k)).map (·.2.1)

variable {placed : List (Key × Row)}

theorem holds_empty (column : Nat) (keyType : DataType) : Holds ⟨column, keyType, .empty⟩ [] :=
  fun _ => rfl

/-- One more row under a key. -/
theorem Holds.add (h : index.Holds placed) (k : Key) (row : Row) :
    (index.add k row.1).Holds (placed ++ [(k, row)]) := by
  intro l
  rw [Index.add, KeyMap.get?_update, List.filter_append, List.map_append, ← h l]
  by_cases hl : l = k
  · rw [if_pos hl, hl]
    simp
  · rw [if_neg hl]
    simp [Ne.symm hl]

/-- The entries of an index are the rows that it holds, in ascending order of the keys, and under
one key in ascending order of the ids. -/
theorem Holds.exists_listing (h : index.Holds placed)
    (hids : (placed.map (·.2.1)).Pairwise (· < ·)) :
    ∃ listed : List (Key × Row), listed.map (fun e => (e.1, e.2.1)) = index.entries.listing ∧
      listed.Perm placed ∧ listed.Pairwise fun e f => e.1 < f.1 ∨ e.1 = f.1 ∧ e.2.1 < f.2.1 := by
  have hids_eq : ∀ e ∈ index.entries.entries,
      e.2 = (placed.filter (·.1 == e.1)).map (·.2.1) := by
    intro e he
    rw [← h e.1, KeyMap.get?_eq_some_iff.2 he, Option.getD_some]
  have hkey : ∀ k, ∀ e ∈ placed.filter (·.1 == k), e.1 = k :=
    fun k e he => beq_iff_eq.1 (List.mem_filter.1 he).2
  refine ⟨index.entries.entries.flatMap fun e => placed.filter (·.1 == e.1), ?_, ?_, ?_⟩
  · rw [KeyMap.listing, List.map_flatMap]
    apply List.flatMap_congr
    intro e he
    rw [hids_eq e he, List.map_map]
    exact List.map_congr_left fun f hf => by rw [hkey e.1 f hf, Function.comp_apply]
  · have hnodup : (index.entries.entries.map (·.1)).Nodup := by
      refine List.pairwise_map.2 (index.entries.sorted.imp fun {e f} hlt heq => ?_)
      rw [heq] at hlt
      exact Key.lt_irrefl f.1 hlt
    have hmem : ∀ e ∈ placed, e.1 ∈ index.entries.entries.map (·.1) := by
      intro e he
      have hid : e.2.1 ∈ (index.entries.get? e.1).getD [] := by
        rw [h e.1]
        exact List.mem_map_of_mem (List.mem_filter.2 ⟨he, beq_self_eq_true e.1⟩)
      cases hget : index.entries.get? e.1 with
      | none => simp [hget] at hid
      | some ids => exact List.mem_map_of_mem (f := (·.1)) (KeyMap.get?_eq_some_iff.1 hget)
    have hparts := flatMap_parts_perm (fun e : Key × Row => e.1) hnodup hmem
    rwa [List.flatMap_map] at hparts
  · rw [List.pairwise_flatMap]
    constructor
    · intro e _
      refine ((List.pairwise_map.1 hids).sublist List.filter_sublist).imp_of_mem ?_
      intro f g hf hg hlt
      exact .inr ⟨(hkey e.1 f hf).trans (hkey e.1 g hg).symm, hlt⟩
    · refine index.entries.sorted.imp fun {e f} hlt x hx y hy => .inl ?_
      rw [hkey e.1 x hx, hkey f.1 y hy]
      exact hlt

/-- The key that a row has in the index. -/
def keyOf (index : Index) (layout : Layout) (t : Tuple) : Except Error Key := do
  Key.typed (← layout.field t index.column) index.keyType

/-- The ids of the rows with a key. -/
def idsOf (index : Index) (layout : Layout) (rows : List Row) (k : Key) : List RowId :=
  (rows.filter fun row => (index.keyOf layout row.2).toOption == some k).map (·.1)

/-- The index holds every row under its key, and nothing else. -/
structure Covers (index : Index) (layout : Layout) (rows : List Row) : Prop where
  /-- Every row has a key. -/
  exists_key : ∀ row ∈ rows, ∃ k, index.keyOf layout row.2 = .ok k
  /-- Under a key are the ids of the rows with that key, in the order of the rows. -/
  get?_eq : ∀ k, (index.entries.get? k).getD [] = index.idsOf layout rows k
  /-- There is no key without rows. -/
  get?_ne : ∀ k, index.entries.get? k ≠ some []

theorem covers_empty (column : Nat) (keyType : DataType) (layout : Layout) :
    Covers ⟨column, keyType, .empty⟩ layout [] where
  exists_key := by simp
  get?_eq _ := rfl
  get?_ne _ := by simp

@[simp] theorem keyOf_add (index : Index) (layout : Layout) (t : Tuple) (k : Key) (id : RowId) :
    (index.add k id).keyOf layout t = index.keyOf layout t := rfl

/-- One more row under its key. -/
theorem Covers.add (h : index.Covers layout rows) (row : Row)
    (hk : index.keyOf layout row.2 = .ok k) :
    (index.add k row.1).Covers layout (rows ++ [row]) where
  exists_key r hr := by
    rcases List.mem_append.1 hr with hr | hr
    · exact h.exists_key r hr
    · obtain rfl := List.mem_singleton.1 hr
      exact ⟨k, hk⟩
  get?_eq l := by
    have hids : (index.add k row.1).idsOf layout (rows ++ [row]) l =
        index.idsOf layout rows l ++ if l = k then [row.1] else [] := by
      by_cases hl : l = k
      · simp [idsOf, List.filter_append, hk, Except.toOption, hl]
      · simp [idsOf, List.filter_append, hk, Except.toOption, hl, Ne.symm hl]
    rw [hids, ← h.get?_eq, Index.add, KeyMap.get?_update]
    by_cases hl : l = k
    · rw [if_pos hl, if_pos hl, hl]
      rfl
    · rw [if_neg hl, if_neg hl, List.append_nil]
  get?_ne l := by
    rw [Index.add, KeyMap.get?_update]
    split
    · simp
    · exact h.get?_ne l

/-- Building an index takes in all rows. -/
theorem Covers.addRows {done : List Row} {index' : Index} (h : index.Covers layout done)
    (hrows : Table.addRows layout rows index = .ok index') :
    index'.Covers layout (done ++ rows) ∧ index'.column = index.column ∧
      index'.keyType = index.keyType := by
  induction rows generalizing done index with
  | nil =>
    simp only [Table.addRows, Except.ok.injEq] at hrows
    subst hrows
    exact ⟨(List.append_nil done).symm ▸ h, rfl, rfl⟩
  | cons row rows ih =>
    obtain ⟨id, t⟩ := row
    simp only [Table.addRows, bind_eq_ok_iff] at hrows
    obtain ⟨v, hv, k, hk, hrest⟩ := hrows
    have hkey : index.keyOf layout t = .ok k := by rw [keyOf, hv, ok_bind, hk]
    obtain ⟨hcovers, hcolumn, htype⟩ := ih (h.add (id, t) hkey) hrest
    rw [List.append_assoc] at hcovers
    exact ⟨hcovers, hcolumn, htype⟩

theorem Covers.mem_listing (h : index.Covers layout rows) {id : RowId} :
    (k, id) ∈ index.entries.listing ↔
      ∃ row ∈ rows, row.1 = id ∧ index.keyOf layout row.2 = .ok k := by
  rw [KeyMap.mem_listing, h.get?_eq, idsOf, List.mem_map]
  constructor
  · rintro ⟨row, hrow, rfl⟩
    obtain ⟨hmem, hkey⟩ := List.mem_filter.1 hrow
    refine ⟨row, hmem, rfl, ?_⟩
    obtain ⟨l, hl⟩ := h.exists_key row hmem
    simp only [hl, Except.toOption, beq_iff_eq, Option.some.injEq] at hkey
    rw [hl, hkey]
  · rintro ⟨row, hrow, rfl, hk⟩
    exact ⟨row, List.mem_filter.2 ⟨hrow, by simp [hk, Except.toOption]⟩, rfl⟩

/-- The rows of the table in the order of the index, each with its key. -/
structure Ordered (index : Index) (layout : Layout) (rows : List Row) (keyed : List (Key × Row)) :
    Prop where
  listing_eq : keyed.map (fun e => (e.1, e.2.1)) = index.entries.listing
  keyOf_eq : ∀ e ∈ keyed, index.keyOf layout e.2.2 = .ok e.1
  perm : (keyed.map (·.2)).Perm rows
  sorted : keyed.Pairwise fun e f => e.1 < f.1 ∨ e.1 = f.1 ∧ e.2.1 < f.2.1

/-- The rows with the keys that they are under. -/
theorem Covers.exists_holds (h : index.Covers layout rows) :
    ∃ placed : List (Key × Row), placed.map (·.2) = rows ∧ index.Holds placed ∧
      ∀ e ∈ placed, index.keyOf layout e.2.2 = .ok e.1 := by
  have hplaced : ∀ list : List Row, (∀ row ∈ list, row ∈ rows) → ∃ placed : List (Key × Row),
      placed.map (·.2) = list ∧ ∀ e ∈ placed, index.keyOf layout e.2.2 = .ok e.1 := by
    intro list hlist
    induction list with
    | nil => exact ⟨[], rfl, by simp⟩
    | cons row list ih =>
      obtain ⟨hrow, hlist⟩ := List.forall_mem_cons.1 hlist
      obtain ⟨k, hk⟩ := h.exists_key row hrow
      obtain ⟨placed, hmap, hkeys⟩ := ih hlist
      exact ⟨(k, row) :: placed, by rw [List.map_cons, hmap], List.forall_mem_cons.2 ⟨hk, hkeys⟩⟩
  obtain ⟨placed, hrows, hkeys⟩ := hplaced rows fun _ hrow => hrow
  refine ⟨placed, hrows, fun k => ?_, hkeys⟩
  have hfilter : placed.filter (fun e => (index.keyOf layout e.2.2).toOption == some k) =
      placed.filter (·.1 == k) :=
    List.filter_congr fun e he => by rw [hkeys e he]; rfl
  rw [h.get?_eq, idsOf, ← hrows, List.filter_map, List.map_map, ← hfilter]
  rfl

theorem Covers.exists_ordered (h : index.Covers layout rows)
    (hids : (rows.map (·.1)).Pairwise (· < ·)) : ∃ keyed, index.Ordered layout rows keyed := by
  obtain ⟨placed, rfl, hholds, hkeys⟩ := h.exists_holds
  rw [List.map_map] at hids
  obtain ⟨keyed, hlisting, hperm, hsorted⟩ := hholds.exists_listing hids
  exact ⟨keyed, hlisting, fun e he => hkeys e (hperm.mem_iff.1 he), hperm.map _, hsorted⟩

/-- A scan over the keys of an interval. -/
theorem exists_scan {index : Index} {range : KeyRange} {i : Interval}
    (h : range.interval? index.keyType = .ok (some i)) :
    ∃ scanner, index.scan range = .ok scanner ∧
      scanner.unread = index.entries.listing.filter (i.contains ·.1) := by
  refine ⟨_, by rw [scan, h]; rfl, ?_⟩
  simp [IndexScanner.unread, IndexScanner.ahead]

theorem mem_listing_add (index : Index) (k : Key) (id : RowId) :
    (k, id) ∈ (index.add k id).entries.listing := by
  rw [KeyMap.mem_listing, add, KeyMap.get?_update, if_pos rfl]
  exact List.mem_append_right _ List.mem_cons_self

/-- What a scanner gives are entries of its index. -/
theorem mem_listing_of_scan {index : Index} {range : KeyRange} {scanner : IndexScanner}
    (h : index.scan range = .ok scanner) : ∀ e ∈ scanner.unread, e ∈ index.entries.listing := by
  intro e he
  obtain ⟨interval?, -, h⟩ := bind_eq_ok_iff.1 h
  cases interval? with
  | none =>
    obtain rfl := Except.ok.inj h
    simp [IndexScanner.unread] at he
  | some interval =>
    obtain rfl := Except.ok.inj h
    simp only [IndexScanner.unread, Bool.false_eq_true, if_false, Option.map_none, Option.getD_none,
      List.nil_append] at he
    exact (List.mem_filter.1 he).1

end Index

end QueryEngine
