import QueryEngine.Proofs.Store.Placement
import QueryEngine.Proofs.Store.Session
import QueryEngine.Proofs.Tuple.LongTexts

/-!
# Texts in indexes

An index takes a text from the values that are inserted, and everything else reads it out of the
row, as far as the word before it says. The two are the same for texts of fewer than 2 ^ 32 bytes
and for no others. Of a text of 2 ^ 32 bytes the word says that it has none, so it has its place in
the index as what it is, and is read as the empty text.

* `Table.indexed_iff_short`: an index agrees with the row of a text if and only if it is short.
* `Store.overlong`: a table of one text with an index on it, beside a table of an empty text.
* `Table.short_overlong`: if the text is short, then so is the table.
* `Table.eq_of_mem_overlong`, `Table.eq_of_lists_overlong`: its only row, and where the index has
  it.
-/

namespace QueryEngine

/-- **An index agrees with a row of a text if and only if the text is short.** It has the row under
the text that was inserted. Of the row is read as much as the word before the text says. -/
theorem Table.indexed_iff_short {t t' : Table} {values : List Value} {rowId : RowId}
    {column : String} {index : Index} {bytes : List UInt8}
    (h : t.insert values = .ok (rowId, t')) (hindex : t.indexes.lookup column = some index)
    (hvalue : values[index.column]? = some (.text bytes))
    (hbefore : ShortTexts (values.take index.column)) :
    ∃ tuple index', (rowId, tuple) ∈ t'.rows ∧ t'.indexes.lookup column = some index' ∧
      (.text bytes, rowId) ∈ index'.entries.listing ∧
      index'.keyOf t'.layout tuple = .ok (.text (bytes.take (bytes.length % 2 ^ 32))) ∧
      (index'.keyOf t'.layout tuple = .ok (.text bytes) ↔ bytes.length < 2 ^ 32) := by
  obtain ⟨tuple, indexes, htuple, -, hindexes, rfl⟩ := exists_of_insert h
  obtain ⟨v, k, hv, hk, hlookup⟩ := exists_lookup_addToIndexes hindexes hindex
  obtain rfl : .text bytes = v := Option.some.inj (hvalue.symm.trans hv)
  obtain ⟨htype, hkey⟩ := Key.typed_eq_ok_iff.1 hk
  obtain rfl : .text bytes = k := Except.ok.inj hkey
  have hread : (index.add (.text bytes) rowId).keyOf t.layout tuple =
      .ok (.text (bytes.take (bytes.length % 2 ^ 32))) := by
    rw [Index.keyOf_add, Index.keyOf, Layout.field_text_of_encode htuple hvalue hbefore, ok_bind,
      ← htype]
    rfl
  refine ⟨tuple, _, List.mem_append_right _ List.mem_cons_self, hlookup,
    index.mem_listing_add _ _, hread, ?_⟩
  rw [hread, Except.ok.injEq, Key.text.injEq, List.take_eq_self_iff]
  have hmod := Nat.mod_lt bytes.length (Nat.two_pow_pos 32)
  constructor
  · intro hle
    omega
  · intro hlt
    rw [Nat.mod_eq_of_lt hlt]

/-! ## One long text -/

/-- An index that has a text under the first id. -/
def Index.overlong (bytes : List UInt8) : Index :=
  (⟨0, .text, .empty⟩ : Index).add (.text bytes) 1

/-- A table of one row, which was inserted when there was an index already. -/
def Table.overlong (bytes : List UInt8) : Table :=
  ⟨.longLayout, [(1, ⟨Value.encode (.text bytes)⟩)], [("s", .overlong bytes)]⟩

/-- The table before the row. -/
def Table.beforeOverlong : Table := ⟨.longLayout, [], [("s", ⟨0, .text, .empty⟩)]⟩

/-- A table of one empty text. -/
def Table.emptyText : Table := ⟨⟨[.text "a" 0], 4 + 2 ^ 32⟩, [(1, ⟨[0, 0, 0, 0]⟩)], []⟩

def Store.overlong (bytes : List UInt8) : Store :=
  ⟨4 + 2 ^ 32, [("l", .emptyText), ("r", .overlong bytes)]⟩

/-- The store before the long text. -/
def Store.beforeOverlong : Store :=
  ⟨4 + 2 ^ 32, [("l", .emptyText), ("r", .beforeOverlong)]⟩

variable {bytes : List UInt8}

namespace Table

theorem insert_beforeOverlong (hroom : bytes.length ≤ 2 ^ 32) :
    beforeOverlong.insert [.text bytes] = .ok (1, overlong bytes) := by
  have hencode : beforeOverlong.layout.encode [.text bytes] = _ := Layout.encode_longLayout hroom
  rw [insert, hencode]
  rfl

theorem short_emptyText : emptyText.Short :=
  .insert (.empty ⟨[.text "a" 0], 4 + 2 ^ 32⟩) (Layout.shortTexts_text (by decide))
    (show insert _ [.text []] = .ok (1, _) from rfl)

/-- A text of fewer bytes does no harm. -/
theorem short_overlong (hshort : bytes.length < 2 ^ 32) : (overlong bytes).Short := by
  have hbefore : beforeOverlong.Short :=
    .createIndex (.empty .longLayout) (show createIndex _ "r" "s" = _ from rfl)
  exact .insert hbefore (Layout.shortTexts_text hshort)
    (insert_beforeOverlong (Nat.le_of_lt hshort))

end Table

namespace Store

theorem reachable_beforeOverlong : beforeOverlong.Reachable := by
  have hleft : Reachable ⟨4 + 2 ^ 32, [("l", ⟨⟨[.text "a" 0], 4 + 2 ^ 32⟩, [], []⟩)]⟩ :=
    .createTable (.empty _) (show createTable _ "l" [.text "a" 0] = _ from rfl)
  have hrow : Reachable ⟨4 + 2 ^ 32, [("l", .emptyText)]⟩ :=
    .insert hleft (show insert _ "l" [.text []] = .ok (1, _) from rfl)
  have hright : Reachable ⟨4 + 2 ^ 32, [("l", .emptyText), ("r", ⟨.longLayout, [], []⟩)]⟩ :=
    .createTable hrow (show createTable _ "r" [.text "s" (2 ^ 32)] = _ from rfl)
  exact .createIndex hright (show createIndex _ "r" "s" = _ from rfl)

theorem insert_beforeOverlong (hroom : bytes.length ≤ 2 ^ 32) :
    beforeOverlong.insert "r" [.text bytes] = .ok (1, overlong bytes) := by
  have htable : beforeOverlong.table "r" = .ok .beforeOverlong := rfl
  rw [insert, htable, ok_bind, Table.insert_beforeOverlong hroom]
  rfl

theorem reachable_overlong (hroom : bytes.length ≤ 2 ^ 32) : (overlong bytes).Reachable :=
  .insert reachable_beforeOverlong (insert_beforeOverlong hroom)

end Store

/-- A long text comes after the empty one. -/
theorem Key.compare_overlong (hlength : bytes.length = 2 ^ 32) :
    Ord.compare (text []) (text bytes) = .lt := by
  cases bytes with
  | nil => exact absurd hlength (by decide)
  | cons b bytes => rfl

theorem KeyRange.contains_overlong (hlength : bytes.length = 2 ^ 32) :
    (point (.text [])).contains (.text bytes) = .ok false := by
  cases bytes with
  | nil => exact absurd hlength (by decide)
  | cons b bytes => rfl

theorem Store.length_overlong (hlength : bytes.length = 2 ^ 32) :
    Tuple.length ⟨Value.encode (.text bytes)⟩ = 4 + 2 ^ 32 := by
  rw [Tuple.length, Value.length_encode, Value.encodedLength, hlength]

namespace Table

variable {row : Row} {listed : List (Key × Row)}

theorem eq_of_mem_overlong (h : row ∈ (overlong bytes).rows) :
    row = (1, ⟨Value.encode (.text bytes)⟩) :=
  List.mem_singleton.1 h

/-- The index has the row under the text that was inserted. -/
theorem eq_of_lists_overlong (h : (Index.overlong bytes).Lists (overlong bytes) listed) :
    listed = [(.text bytes, (1, ⟨Value.encode (.text bytes)⟩))] := by
  have hlisting := h.listing_eq
  have hlength : listed.length = 1 := by
    rw [← List.length_map, h.perm.length_eq]
    rfl
  obtain ⟨e, rfl⟩ := List.length_eq_one_iff.1 hlength
  obtain ⟨k, row⟩ := e
  have hrow : row ∈ (overlong bytes).rows := h.perm.mem_iff.1 List.mem_cons_self
  obtain rfl := eq_of_mem_overlong hrow
  obtain ⟨hkey, -⟩ := Prod.mk.inj (List.singleton_injective hlisting)
  exact congrArg (fun k => [(k, _)]) hkey

end Table

theorem Store.lists_overlong (hlength : bytes.length = 2 ^ 32) :
    (Index.overlong bytes).Lists (Table.overlong bytes)
      [(.text bytes, (1, ⟨Value.encode (.text bytes)⟩))] := by
  obtain ⟨listed, hlists⟩ := (reachable_overlong (Nat.le_of_eq hlength)).exists_lists
    (show (overlong bytes).table "r" = .ok (.overlong bytes) from rfl)
    (show (Table.overlong bytes).indexes.lookup "s" = some (.overlong bytes) from rfl)
  rwa [Table.eq_of_lists_overlong hlists] at hlists

/-- Who looks for the empty text in the index finds nothing. -/
theorem Index.unread_overlong (hlength : bytes.length = 2 ^ 32) {scanner : IndexScanner}
    (h : (Index.overlong bytes).scan (.point (.text [])) = .ok scanner) : scanner.unread = [] := by
  obtain ⟨-, hunread⟩ := (Store.lists_overlong hlength).unread_scan h
  have hnone : [(Key.text bytes, ((1, ⟨Value.encode (.text bytes)⟩) : Row))].filter
      (fun e => (KeyRange.point (.text [])).contains e.1.toValue = .ok true) = [] := by
    simp [Key.toValue, KeyRange.contains_overlong hlength]
  rw [hnone] at hunread
  exact List.map_eq_nil_iff.1 hunread

end QueryEngine
