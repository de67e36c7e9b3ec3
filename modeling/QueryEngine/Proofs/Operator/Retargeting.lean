import QueryEngine.Proofs.Operator.Growing
import QueryEngine.Proofs.Store.Resolution

/-!
# Moving an index scan

An index scan keeps a range and a scanner, and the two may part: a range is taken over before the
index is looked at, and if that fails the old scanner is gone. Whatever happened to a scan, moving
it once more depends on its range, on whether it is open, and on the store as it is then.

* `KeyRange.Ranks`: the rows of a table in the order of an attribute, and which of them lie in a
  range.
* `IndexScan.respond`: a scan that is moved and read while its store is written to.
* `IndexScan.Giving`: what such a scan gives next. Only moves and closing change that.
* `IndexScan.reopen_of_index`: a move to a range makes it give the rows that are in the range now.
-/

namespace QueryEngine

/-- The rows of a table in the order of the values of the attribute at a position, and of their ids
where these are equal. Of all rows it can be said whether they are in the range. -/
structure KeyRange.Ranks (range : KeyRange) (t : Table) (position : Nat)
    (ranked : List (Row × Value)) : Prop where
  perm : (ranked.map (·.1)).Perm t.rows
  decided : ∀ e ∈ ranked, ∃ v b, t.layout.field e.1.2 position = .ok v ∧
    e.2.compare v = .ok .eq ∧ range.contains v = .ok b ∧ range.contains e.2 = .ok b
  sorted : ranked.Pairwise fun e f =>
    e.2.compare f.2 = .ok .lt ∨ e.2.compare f.2 = .ok .eq ∧ e.1.1 < f.1.1

/-- The rows in the order of an index are in that of its attribute. -/
theorem Index.Ordered.ranks {index : Index} {t : Table} {keyed : List (Key × Row)}
    {range : KeyRange} {i? : Option Interval} (hrange : range.interval? index.keyType = .ok i?)
    (h : index.Ordered t.layout t.rows keyed) :
    range.Ranks t index.column (keyed.map fun e => (e.2, e.1.toValue)) := by
  obtain ⟨i, hcontains⟩ := KeyRange.exists_contains hrange
  refine ⟨?_, fun e he => ?_, ?_⟩
  · rw [List.map_map]
    exact h.perm
  · obtain ⟨f, hf, rfl⟩ := List.mem_map.1 he
    obtain ⟨v, hv, hkey⟩ := bind_eq_ok_iff.1 (h.keyOf_eq f hf)
    exact ⟨v, i.contains f.1, hv, Key.toValue_compare hkey, hcontains _ _ hkey,
      hcontains _ _ (h.lists.typed_eq f hf)⟩
  · rw [List.pairwise_map]
    exact h.lists.sorted_toValue

/-- A scan has still to give the rows in its range, in their order. -/
theorem Index.Lists.unread_eq {index : Index} {t : Table} {listed : List (Key × Row)}
    {range : KeyRange} {scanner : IndexScanner} (h : index.Lists t listed)
    (hscan : index.scan range = .ok scanner) :
    scanner.unread.map (fun e => (e.2, e.1.toValue)) =
      (range.select (listed.map fun e => (e.2, e.1.toValue))).map KeyRange.entry := by
  rw [(h.unread_scan hscan).2, KeyRange.select, List.filter_map, List.map_map]
  rfl

namespace IndexScan

/-- A scan, and the store that it reads, which is written to in between. -/
structure Live where
  store : Store
  state : State
  reads : Nat

/-- What is asked of a scan or of its store. -/
inductive Request where
  | start
  | close
  | next
  | nextEntry
  | setRange (range : KeyRange)
  | call (visit : Visit) (c : Call)

/-- What a request is answered with. -/
inductive Reply where
  | done
  | tuple (answer : Option Tuple)
  | entry (answer : Option (RowId × Value))

/-- What comes of a request, of which the answer of the store is not looked at. -/
def respond (scan : IndexScan) (w : Live) : Request → Except Error Reply × Live
  | .start =>
    let (answer, state) := scan.start { store := w.store } w.state
    (answer.map fun _ => .done, { w with state })
  | .close => (.ok .done, { w with state := IndexScan.close w.state })
  | .next =>
    let pull := scan.next { store := w.store } w.state w.reads
    (pull.answer.map .tuple, { w with state := pull.state, reads := pull.reads })
  | .nextEntry =>
    let (answer, state) := IndexScan.nextEntry w.state
    (answer.map .entry, { w with state })
  | .setRange range =>
    let (answer, state) := scan.setRange { store := w.store } range w.state
    (answer.map fun _ => .done, { w with state })
  | .call visit c => (.ok .done, { w with store := w.store.after visit c })

/-- What comes of some requests. -/
def run (scan : IndexScan) (w : Live) (requests : List Request) : Live :=
  requests.foldl (fun w request => (scan.respond w request).2) w

/-- What comes of some requests to a scan that was just bound. -/
def replay (scan : IndexScan) (base : Store) (requests : List Request) : Live :=
  scan.run ⟨base, initial, 0⟩ requests

namespace Request

/-- The range that a request names. -/
def range? : Request → Option KeyRange
  | setRange range => some range
  | _ => none

/-- Whether the scan is open after a request that opens or closes it. -/
def opens? : Request → Option Bool
  | start => some true
  | close => some false
  | _ => none

/-- Whether a request takes the next entry. -/
def pulls : Request → Bool
  | next | nextEntry => true
  | _ => false

/-- Whether a request leaves the scan where it is, but for the entries that it takes. -/
def stays : Request → Bool
  | next | nextEntry | call _ _ => true
  | _ => false

/-- What the last of some requests to say anything said. -/
def latest {α : Type} (f : Request → Option α) (a : α) (requests : List Request) : α :=
  (requests.filterMap f).getLast?.getD a

/-- The range of the last request that named one, and every value before there was any. -/
abbrev lastRange (requests : List Request) : KeyRange := latest range? .all requests

/-- Whether the scan was opened and not closed since then. An opening that fails counts. -/
abbrev isOpen (requests : List Request) : Bool := latest opens? false requests

/-- The range that a request moves the scan to, after some others. -/
def target? (before : List Request) : Request → Option KeyRange
  | start => some (lastRange before)
  | setRange range => if isOpen before then some range else none
  | _ => none

theorem latest_concat {α : Type} (f : Request → Option α) (a : α) (requests : List Request)
    (request : Request) :
    latest f a (requests ++ [request]) = (f request).getD (latest f a requests) := by
  rw [latest, latest, List.filterMap_append, List.filterMap_cons, List.filterMap_nil]
  cases f request <;> simp

end Request

variable {scan : IndexScan} {base : Store} {w : Live} {request : Request} {range : KeyRange}
  {name column : String} {alias? : Option String}

/-! ## The range, and whether the scan is open -/

/-- Taking an entry moves the scanner and nothing else. -/
theorem exists_nextEntry_eq (s : State) :
    ∃ scanner done, (IndexScan.nextEntry s).2 = { s with scanner, done } := by
  unfold IndexScan.nextEntry
  split
  · exact ⟨_, _, rfl⟩
  · split
    · exact ⟨_, _, rfl⟩
    · split <;> exact ⟨_, _, rfl⟩

theorem exists_reopen_eq (scan : IndexScan) (db : Database) (s : State) :
    ∃ scanner done, (scan.reopen db s).2 = { s with scanner, done } := by
  unfold reopen
  split <;> exact ⟨_, _, rfl⟩

theorem exists_next_eq (scan : IndexScan) (db : Database) (s : State) (reads : Nat) :
    ∃ scanner done fetched,
      (scan.next db s reads).state = { s with scanner, done, fetched } := by
  obtain ⟨scanner, done, hentry⟩ := exists_nextEntry_eq s
  unfold IndexScan.next
  split
  all_goals
    rename_i heq
    rw [heq] at hentry
    obtain rfl := hentry
    exact ⟨_, _, _, rfl⟩

/-- Only requests for that change the range, or open and close the scan. -/
theorem respond_frame (scan : IndexScan) (w : Live) (request : Request) :
    (scan.respond w request).2.state.range = request.range?.getD w.state.range ∧
      (scan.respond w request).2.state.opened = request.opens?.getD w.state.opened := by
  cases request with
  | start =>
    obtain ⟨scanner, done, h⟩ := scan.exists_reopen_eq { store := w.store }
      { w.state with opened := true }
    simp only [respond, IndexScan.start, h]
    exact ⟨rfl, rfl⟩
  | close => exact ⟨rfl, rfl⟩
  | next =>
    obtain ⟨scanner, done, fetched, h⟩ := scan.exists_next_eq { store := w.store } w.state w.reads
    simp only [respond, h]
    exact ⟨rfl, rfl⟩
  | nextEntry =>
    obtain ⟨scanner, done, h⟩ := exists_nextEntry_eq w.state
    simp only [respond, h]
    exact ⟨rfl, rfl⟩
  | setRange range =>
    obtain ⟨scanner, done, h⟩ := scan.exists_reopen_eq { store := w.store } { w.state with range }
    simp only [respond, IndexScan.setRange]
    split
    · rw [h]
      exact ⟨rfl, rfl⟩
    · exact ⟨rfl, rfl⟩
  | call visit c => exact ⟨rfl, rfl⟩

theorem grows_respond (scan : IndexScan) (hw : w.store.Reachable) (request : Request) :
    w.store.Grows (scan.respond w request).2.store := by
  cases request with
  | call visit c => exact hw.grows_after visit c
  | start | close | next | nextEntry | setRange range => exact .refl

theorem replay_concat (scan : IndexScan) (base : Store) (requests : List Request)
    (request : Request) :
    scan.replay base (requests ++ [request]) =
      (scan.respond (scan.replay base requests) request).2 := by
  rw [replay, run, List.foldl_append]
  rfl

/-- What holds of a scan after some requests. -/
structure Tracks (base : Store) (before : List Request) (w : Live) : Prop where
  grows : base.Grows w.store
  range : w.state.range = Request.lastRange before
  opened : w.state.opened = Request.isOpen before

theorem tracks_replay (scan : IndexScan) (hbase : base.Reachable) (before : List Request) :
    Tracks base before (scan.replay base before) := by
  induction before using List.reverseRecOn with
  | nil => exact ⟨.refl, rfl, rfl⟩
  | append_singleton before request ih =>
    obtain ⟨hrange, hopened⟩ := scan.respond_frame (scan.replay base before) request
    rw [replay_concat]
    refine ⟨ih.grows.trans (scan.grows_respond (ih.grows.reachable hbase) request), ?_, ?_⟩
    · rw [hrange, ih.range]
      exact (Request.latest_concat _ _ _ _).symm
    · rw [hopened, ih.opened]
      exact (Request.latest_concat _ _ _ _).symm

/-! ## What is given -/

/-- An open scan that has still to give some entries, one that is used up included. -/
def State.Gives (s : State) (entries : List (RowId × Value)) : Prop :=
  ∃ scanner, s.scanner = some scanner ∧
    (s.done = false ∧ scanner.unread.map (fun e => (e.2, e.1.toValue)) = entries ∨
      s.done = true ∧ entries = [])

theorem State.Gives.nextEntry {s : State} {entries : List (RowId × Value)} (h : s.Gives entries) :
    (IndexScan.nextEntry s).1 = .ok entries.head? ∧
      (IndexScan.nextEntry s).2.Gives entries.tail := by
  obtain ⟨scanner, hscanner, ⟨hdone, rfl⟩ | ⟨hdone, rfl⟩⟩ := h
  · obtain ⟨hanswer, hrest⟩ := scanner.next_eq
    rw [List.head?_map, ← hanswer, ← List.map_tail, ← hrest]
    simp only [IndexScan.nextEntry, hscanner, hdone, Bool.false_eq_true, if_false]
    split
    · rename_i scanner' hnext
      have hnil : scanner.unread = [] := by
        rw [hnext] at hanswer
        simpa using hanswer.symm
      rw [hnext] at hrest
      exact ⟨by rw [hnext], scanner', rfl, .inr ⟨rfl, by rw [hnext, hrest, hnil]; rfl⟩⟩
    · rename_i entry scanner' hnext
      exact ⟨by rw [hnext], scanner', rfl, .inl ⟨rfl, by rw [hnext]⟩⟩
  · simp only [IndexScan.nextEntry, hscanner, hdone, if_true]
    exact ⟨rfl, scanner, hscanner, .inr ⟨hdone, rfl⟩⟩

/-- A scan that has still to give some rows, which are there to be fetched. -/
structure Giving (scan : IndexScan) (w : Live) (found : List (Row × Value)) : Prop where
  reachable : w.store.Reachable
  fetch : ∀ e ∈ found, w.store.readTuple scan.table e.1.1 = .ok e.1.2
  gives : w.state.Gives (found.map KeyRange.entry)

variable {found : List (Row × Value)}

/-- An entry is given without its row. -/
theorem Giving.nextEntry (h : scan.Giving w found) :
    (scan.respond w .nextEntry).1 = .ok (.entry (found.head?.map KeyRange.entry)) ∧
      scan.Giving (scan.respond w .nextEntry).2 found.tail := by
  obtain ⟨hanswer, hrest⟩ := h.gives.nextEntry
  rw [List.head?_map] at hanswer
  rw [← List.map_tail] at hrest
  exact ⟨by simp only [respond, hanswer, Except.map], h.reachable,
    fun e he => h.fetch e (List.mem_of_mem_tail he), hrest⟩

/-- A row is fetched as it was when the scan was moved. -/
theorem Giving.next (h : scan.Giving w found) :
    (scan.respond w .next).1 = .ok (.tuple (found.head?.map (·.1.2))) ∧
      scan.Giving (scan.respond w .next).2 found.tail := by
  obtain ⟨hanswer, hrest⟩ := h.gives.nextEntry
  have hentry : IndexScan.nextEntry w.state =
      (.ok (found.map KeyRange.entry).head?, (IndexScan.nextEntry w.state).2) :=
    Prod.ext hanswer rfl
  rw [← List.map_tail] at hrest
  have hfetch : ∀ e ∈ found.tail, w.store.readTuple scan.table e.1.1 = .ok e.1.2 :=
    fun e he => h.fetch e (List.mem_of_mem_tail he)
  simp only [respond, IndexScan.next]
  cases found with
  | nil =>
    rw [hentry]
    exact ⟨rfl, h.reachable, hfetch, hrest⟩
  | cons e found =>
    have hread : Database.readTuple { store := w.store } w.reads scan.table e.1.1 = .ok e.1.2 :=
      h.fetch e List.mem_cons_self
    rw [hentry]
    simp only [List.map_cons, List.head?_cons, KeyRange.entry, hread, Except.map]
    exact ⟨rfl, h.reachable, hfetch, hrest⟩

/-- Rows that are there stay there. -/
theorem Giving.call (h : scan.Giving w found) (visit : Visit) (c : Call) :
    scan.Giving (scan.respond w (.call visit c)).2 found := by
  have hgrows := h.reachable.grows_after visit c
  exact ⟨hgrows.reachable h.reachable,
    fun e he => hgrows.readTuple_eq h.reachable (h.fetch e he), h.gives⟩

theorem Giving.run (h : scan.Giving w found) {requests : List Request}
    (hstays : ∀ request ∈ requests, request.stays = true) :
    scan.Giving (scan.run w requests) (found.drop (requests.countP (·.pulls))) := by
  induction requests generalizing w found with
  | nil => exact h
  | cons request requests ih =>
    obtain ⟨hrequest, hrequests⟩ := List.forall_mem_cons.1 hstays
    have hpulled : ∀ {w' : Live}, scan.Giving w' found.tail →
        scan.Giving (scan.run w' requests) (found.drop (requests.countP (·.pulls) + 1)) := by
      intro w' hrest
      rw [← List.drop_tail]
      exact ih hrest hrequests
    cases request with
    | next =>
      rw [List.countP_cons_of_pos rfl]
      exact hpulled h.next.2
    | nextEntry =>
      rw [List.countP_cons_of_pos rfl]
      exact hpulled h.nextEntry.2
    | call visit c =>
      rw [List.countP_cons_of_neg Bool.false_ne_true]
      exact ih (h.call visit c) hrequests
    | start | close | setRange range => cases hrequest

/-! ## Moves -/

/-- A move to a range is an opening over it, however the scan is moved. -/
theorem respond_of_target {before : List Request} (h : Tracks base before w)
    (htarget : request.target? before = some range) :
    scan.respond w request =
      let moved := scan.reopen { store := w.store } { w.state with range, opened := true }
      (moved.1.map fun _ => .done, { w with state := moved.2 }) := by
  cases request with
  | start =>
    obtain rfl := Option.some.inj htarget
    simp only [respond, IndexScan.start, ← h.range]
  | setRange range' =>
    rw [Request.target?, ← h.opened] at htarget
    split at htarget
    · rename_i hopened
      obtain rfl := Option.some.inj htarget
      simp only [respond, IndexScan.setRange, hopened, if_true]
    · cases htarget
  | close | next | nextEntry | call _ _ => cases htarget

/-- A scan of an indexed column, with the table that it is on as it is now. -/
theorem Tracks.exists_table {before : List Request} {t : Table} {index : Index}
    (h : Tracks base before w) (hbase : base.Reachable)
    (hbind : bind base name column alias? = .ok scan) (ht : base.table name = .ok t)
    (hindex : t.indexes.lookup column = some index) :
    ∃ t' index' a, w.store.table scan.table = .ok t' ∧
      t'.indexes.lookup scan.column = some index' ∧
      t'.schema.find scan.column = .ok (index'.column, a) ∧ index'.keyType = scan.keyType := by
  obtain ⟨_, _, _, -, -, hscan⟩ := exists_of_bind hbind
  obtain ⟨t', ht', hgrown⟩ := h.grows.exists_table ht
  obtain ⟨index', hindex', -⟩ := hgrown.exists_index hindex
  obtain ⟨a, ha, -⟩ := ((h.grows.reachable hbase).sound_of_table ht').indexed _
    (mem_of_lookup hindex')
  have htable : w.store.table scan.table = .ok t' := by rw [hscan, ht']
  have hlookup : t'.indexes.lookup scan.column = some index' := by rw [hscan, hindex']
  exact ⟨t', index', a, htable, hlookup, by rw [hscan, ha],
    keyType_eq hbase h.grows hbind htable hlookup⟩

/-- Opening anew gives what is in the range, if its bounds fit the index. -/
theorem reopen_of_index {store : Store} {t : Table} {index : Index} (hs : store.Reachable)
    (ht : store.table scan.table = .ok t) (hindex : t.indexes.lookup scan.column = some index)
    (hfits : range.Fits index.keyType) (s : State) :
    ∃ ranked, (ranked.map (·.1)).Perm t.rows ∧ (t.Short → range.Ranks t index.column ranked) ∧
      (∀ e ∈ range.select ranked, store.readTuple scan.table e.1.1 = .ok e.1.2) ∧
      (scan.reopen { store } { s with range, opened := true }).1 = .ok () ∧
      (scan.reopen { store } { s with range, opened := true }).2.Gives
        ((range.select ranked).map KeyRange.entry) := by
  obtain ⟨i?, hi⟩ := KeyRange.exists_interval?_iff.2 hfits
  obtain ⟨scanner, hscan⟩ := Index.exists_scan_of_interval hi
  obtain ⟨listed, hlists⟩ := hs.exists_lists ht hindex
  have hperm : ((listed.map fun e => (e.2, e.1.toValue)).map (·.1)).Perm t.rows := by
    rw [List.map_map]
    exact hlists.perm
  have hopen : store.indexScan scan.table scan.column range = .ok scanner := by
    rw [Store.indexScan, ht, ok_bind, hindex]
    exact hscan
  refine ⟨_, hperm, fun hshort => (hshort.ordered hindex hlists).ranks hi, fun e he => ?_, ?_, ?_⟩
  · have hrow : e.1 ∈ t.rows := hperm.mem_iff.1 (List.mem_map_of_mem (List.mem_of_mem_filter he))
    rw [Store.readTuple, ht, ok_bind]
    exact (hs.sound_of_table ht).readTuple_eq scan.table hrow
  · simp only [reopen, hopen]
  · simp only [reopen, hopen]
    exact ⟨scanner, rfl, .inl ⟨rfl, hlists.unread_eq hscan⟩⟩

/-- A range whose bounds do not fit is refused. -/
theorem reopen_of_not_fits {store : Store} {t : Table} {index : Index}
    (ht : store.table scan.table = .ok t) (hindex : t.indexes.lookup scan.column = some index)
    (hfits : ¬range.Fits index.keyType) (s : State) :
    ∃ e, (scan.reopen { store } { s with range, opened := true }).1 = .error e := by
  cases hi : range.interval? index.keyType with
  | ok i? => exact (hfits (KeyRange.exists_interval?_iff.1 ⟨i?, hi⟩)).elim
  | error e =>
    have hopen : store.indexScan scan.table scan.column range = .error e := by
      rw [Store.indexScan, ht, ok_bind, hindex]
      exact Index.scan_eq_error_iff.2 hi
    exact ⟨e, by simp only [reopen, hopen]⟩

/-- **An index scan can be moved at any time.** Its range is the last that was asked for. While it
is not open another range is only noted. A move of an open scan, or its opening, fails if and only
if a bound does not fit the index, and otherwise the scan gives the rows that are in the range at
that moment, in the order of their values and then of their ids, and after these nothing, whatever
is written to the store; it does not matter what happened before. The values are those of the rows
if the texts that the table has at that moment have fewer than 2 ^ 32 bytes each. -/
theorem retargeted {t : Table} {index : Index} (hbase : base.Reachable)
    (hbind : bind base name column alias? = .ok scan) (ht : base.table name = .ok t)
    (hindex : t.indexes.lookup column = some index) (before : List Request) :
    let w := scan.replay base before
    w.state.range = Request.lastRange before ∧ w.state.opened = Request.isOpen before ∧
    (Request.isOpen before = false → ∀ range,
      scan.respond w (.setRange range) = (.ok .done, { w with state.range := range })) ∧
    ∀ request range, request.target? before = some range →
      ((scan.respond w request).1 = .ok .done ↔ range.Fits scan.keyType) ∧
      (range.Fits scan.keyType → ∃ t position a ranked,
        w.store.table scan.table = .ok t ∧ t.schema.find scan.column = .ok (position, a) ∧
        (ranked.map (·.1)).Perm t.rows ∧ (t.Short → range.Ranks t position ranked) ∧
        ∀ later : List Request, (∀ request ∈ later, request.stays = true) →
          let given := (range.select ranked)[later.countP (·.pulls)]?
          let w' := scan.run (scan.respond w request).2 later
          (scan.respond w' .next).1 = .ok (.tuple (given.map (·.1.2))) ∧
          (scan.respond w' .nextEntry).1 = .ok (.entry (given.map KeyRange.entry))) := by
  intro w
  have htracks : Tracks base before w := scan.tracks_replay hbase before
  obtain ⟨t', index', a, ht', hindex', ha, htype⟩ := htracks.exists_table hbase hbind ht hindex
  refine ⟨htracks.range, htracks.opened, fun hclosed range => ?_, fun request range htarget => ?_⟩
  · rw [← htracks.opened] at hclosed
    simp only [respond, IndexScan.setRange, hclosed, Bool.false_eq_true, if_false, Except.map]
  rw [respond_of_target htracks htarget, ← htype]
  have hreachable := htracks.grows.reachable hbase
  constructor
  · constructor
    · intro hdone
      by_contra hfits
      obtain ⟨e, he⟩ := reopen_of_not_fits ht' hindex' hfits w.state
      simp only [he, Except.map, reduceCtorEq] at hdone
    · intro hfits
      obtain ⟨-, -, -, -, hok, -⟩ := reopen_of_index hreachable ht' hindex' hfits w.state
      simp only [hok, Except.map]
  · intro hfits
    obtain ⟨ranked, hperm, hranks, hfetch, -, hgives⟩ :=
      reopen_of_index hreachable ht' hindex' hfits w.state
    refine ⟨t', index'.column, a, ranked, ht', ha, hperm, hranks, fun later hlater => ?_⟩
    have hmoved : scan.Giving { w with state :=
        (scan.reopen { store := w.store } { w.state with range, opened := true }).2 }
        (range.select ranked) := ⟨hreachable, hfetch, hgives⟩
    have hgiving := hmoved.run hlater
    rw [← List.head?_drop]
    exact ⟨hgiving.next.1, hgiving.nextEntry.1⟩

/-- A table of two rows with an index on it. -/
def twoRows (visit : Visit) : Store := (Session.replay 64 ([.createTable "t" [.integer "n"],
  .createIndex "t" "n", .insert "t" [.integer 7], .insert "t" [.integer 3]].map (visit, ·))).store

/-- A scan that lost its index to a range of another type. -/
def astray : List Request :=
  [.start, .nextEntry, .setRange (.point (.text [])), .next]

/-- The scan is moved back to both rows, and gives the second also when there is a third by then. -/
theorem retargeted_twoRows : ∃ visit scan t position ranked,
    bind (twoRows visit) "t" "n" none = .ok scan ∧ (twoRows visit).table "t" = .ok t ∧
    KeyRange.all.Ranks t position ranked ∧ ranked.length = 2 ∧
    (scan.respond (scan.replay (twoRows visit) astray) (.setRange .all)).1 = .ok .done ∧
    (scan.respond (scan.run (scan.respond (scan.replay (twoRows visit) astray) (.setRange .all)).2
      [.next, .call visit (.insert "t" [.integer 5])]) .next).1 =
        .ok (.tuple ((KeyRange.all.select ranked)[1]?.map (·.1.2))) := by
  let visit : Visit := ⟨id, .refl⟩
  have hbase : (twoRows visit).Reachable := (Session.sound_replay 64 _).reachable
  obtain ⟨scan, hbind⟩ : ∃ scan, bind (twoRows visit) "t" "n" none = .ok scan := ⟨_, by rfl⟩
  obtain ⟨t, index, ht, hindex, hrows⟩ : ∃ t index, (twoRows visit).table "t" = .ok t ∧
      t.indexes.lookup "n" = some index ∧ t.rows.length = 2 := ⟨_, _, by rfl, by rfl, by rfl⟩
  have hshort : t.Short := hbase.short (by decide) _ (Store.mem_tables_of_table ht)
  have hfits : KeyRange.all.Fits scan.keyType := by simp [KeyRange.Fits, KeyRange.all]
  obtain ⟨-, -, -, hmoves⟩ := retargeted hbase hbind ht hindex astray
  obtain ⟨hdone, hgives⟩ := hmoves (.setRange .all) .all rfl
  obtain ⟨t', position, a, ranked, ht', -, hperm, hranks, hlater⟩ := hgives hfits
  have hstore : (scan.replay (twoRows visit) astray).store = twoRows visit := rfl
  obtain ⟨_, _, _, -, -, hscan⟩ := exists_of_bind hbind
  rw [hstore, hscan, ht] at ht'
  obtain rfl := Except.ok.inj ht'
  have hstays : ∀ request ∈ [Request.next, .call visit (.insert "t" [.integer 5])],
      request.stays = true := by simp [Request.stays]
  refine ⟨visit, scan, t, position, ranked, hbind, ht, hranks hshort, ?_, hdone.2 hfits,
    (hlater _ hstays).1⟩
  rw [← List.length_map, hperm.length_eq, hrows]

/-- A scan that is moved to the empty text gives nothing, while the one row of the table is read to
have it. -/
theorem not_always_retargeted :
    ¬∀ (base : Store) (scan : IndexScan) (name column : String) (alias? : Option String)
        (t : Table) (index : Index), base.Reachable →
      bind base name column alias? = .ok scan → base.table name = .ok t →
      t.indexes.lookup column = some index →
      ∀ (before : List Request) (request : Request) (range : KeyRange),
        request.target? before = some range → range.Fits scan.keyType →
        ∃ t position a ranked, (scan.replay base before).store.table scan.table = .ok t ∧
          t.schema.find scan.column = .ok (position, a) ∧ range.Ranks t position ranked ∧
          ∀ later : List Request, (∀ request ∈ later, request.stays = true) →
            (scan.respond (scan.run (scan.respond (scan.replay base before) request).2 later)
              .next).1 =
                .ok (.tuple ((range.select ranked)[later.countP (·.pulls)]?.map (·.1.2))) := by
  intro hall
  obtain ⟨bytes, hlength⟩ : ∃ bytes : List UInt8, bytes.length = 2 ^ 32 :=
    ⟨List.replicate (2 ^ 32) 0, List.length_replicate⟩
  let range : KeyRange := .point (.text [])
  let scan : IndexScan := ⟨"r", "s", .text "r.s" (2 ^ 32), [.text "r.s" (2 ^ 32)]⟩
  have hfits : range.Fits scan.keyType := by
    intro v hv
    obtain rfl : .text [] = v := by
      rcases hv with h | h <;> exact Option.some.inj h
    exact ⟨rfl, rfl⟩
  have hbase : (Store.overlong bytes).Reachable := Store.reachable_overlong (Nat.le_of_eq hlength)
  obtain ⟨t, position, a, ranked, ht, ha, hranks, hlater⟩ := hall (.overlong bytes) scan "r" "s"
    none (.overlong bytes) (.overlong bytes) hbase rfl rfl rfl [.start] (.setRange range) range rfl
    hfits
  obtain rfl : .overlong bytes = t := Except.ok.inj ht
  obtain rfl : 0 = position := (Prod.mk.inj (Except.ok.inj ha)).1
  -- the row lies in the range as it is read
  have hrow : (1, ⟨Value.encode (.text bytes)⟩) ∈ ranked.map (·.1) :=
    hranks.perm.mem_iff.2 List.mem_cons_self
  obtain ⟨e, he, hrow⟩ := List.mem_map.1 hrow
  obtain ⟨v, b, hv, -, hb, hselected⟩ := hranks.decided e he
  rw [hrow] at hv
  obtain rfl : .text [] = v := Except.ok.inj ((Layout.field_long hlength _ _ _).symm.trans hv)
  obtain rfl : true = b := Except.ok.inj hb
  have hmem : e ∈ range.select ranked := List.mem_filter.2 ⟨he, decide_eq_true hselected⟩
  -- and nothing is given
  obtain ⟨scanner, hopen⟩ : ∃ scanner,
      (Store.overlong bytes).indexScan scan.table scan.column range = .ok scanner := ⟨_, rfl⟩
  have hgives : scan.Giving (scan.respond (scan.replay (.overlong bytes) [.start])
      (.setRange range)).2 [] := by
    refine ⟨hbase, by simp, ?_⟩
    rw [respond_of_target (scan.tracks_replay hbase [.start]) rfl]
    have hstore : (scan.replay (.overlong bytes) [.start]).store = .overlong bytes := rfl
    simp only [reopen, hstore, hopen]
    exact ⟨scanner, rfl, .inl ⟨rfl, by rw [Index.unread_overlong hlength hopen]; rfl⟩⟩
  have hnext := hgives.next.1.symm.trans (hlater [] (by simp))
  cases hgiven : range.select ranked with
  | nil => exact List.not_mem_nil (hgiven ▸ hmem)
  | cons f found => simp [hgiven] at hnext

end IndexScan

end QueryEngine
