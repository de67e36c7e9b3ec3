import Mathlib.Data.List.Perm.Basic
import QueryEngine.Proofs.KeyRange
import QueryEngine.Proofs.Store.LongTexts

/-!
# What a scan over a range gives

A scan through an index gives the rows whose values the range contains, in the order of the index,
as they were when it was opened.

* `Store.ScanRefused`: why there is no scan over a range.
* `KeyRange.Finds`: the rows that a range contains, each with a value, in the order of an index.
* `OpenStore`: a store that is changed and scanned by turns.
* `Index.Ordered.exists_finds`: a scanner has what its range found when it was opened.
* `OpenStore.given_eq`: what it gives does not depend on what happens between its calls.
-/

namespace QueryEngine

/-! ## Scans that are refused -/

/-- Why a value has no key of a type. -/
inductive Value.Misfit (v : Value) (t : DataType) : Error → Prop where
  | otherType (h : v.dataType ≠ t) : v.Misfit t (.typeMismatch t v.dataType)
  | nonFinite (ht : v.dataType = t) (h : v.isFinite = false) : v.Misfit t .nonFiniteReal

theorem Key.typed_eq_error_iff {v : Value} {t : DataType} {e : Error} :
    Key.typed v t = .error e ↔ v.Misfit t e := by
  by_cases ht : v.dataType = t
  · cases hf : v.isFinite with
    | true =>
      obtain ⟨k, hk⟩ := Key.exists_typed ht hf
      rw [hk]
      constructor
      · intro h
        cases h
      · rintro (hne | ⟨-, hf'⟩)
        · exact (hne ht).elim
        · rw [hf] at hf'
          cases hf'
    | false =>
      rw [Key.typed_eq_nonFiniteReal ht hf, Except.error.injEq]
      constructor
      · rintro rfl
        exact .nonFinite ht hf
      · rintro (hne | -)
        · exact (hne ht).elim
        · rfl
  · have htyped : Key.typed v t = .error (.typeMismatch t v.dataType) := by
      simp [Key.typed, Value.expectType, ht]
    rw [htyped, Except.error.injEq]
    constructor
    · rintro rfl
      exact .otherType ht
    · rintro (- | ⟨ht', -⟩)
      · rfl
      · exact (ht ht').elim

namespace KeyRange

variable {r : KeyRange} {t : DataType} {e : Error}

theorem bound_eq_error_iff {v : Option Value} {inclusive : Bool} :
    bound v inclusive t = .error e ↔ ∃ w, v = some w ∧ w.Misfit t e := by
  cases v with
  | none => simp [bound]
  | some w =>
    rw [bound]
    simp only [Option.some.injEq, exists_eq_left', ← Key.typed_eq_error_iff]
    cases Key.typed w t <;> simp [Except.map]

theorem exists_bound_iff {v : Option Value} {inclusive : Bool} :
    (∃ b, bound v inclusive t = .ok b) ↔ ∀ e w, v = some w → ¬w.Misfit t e := by
  cases h : bound v inclusive t with
  | ok b =>
    refine ⟨fun _ e w hw hmisfit => ?_, fun _ => ⟨b, rfl⟩⟩
    rw [bound_eq_error_iff.2 ⟨w, hw, hmisfit⟩] at h
    cases h
  | error e =>
    obtain ⟨w, hw, hmisfit⟩ := bound_eq_error_iff.1 h
    exact ⟨fun ⟨_, hb⟩ => (by cases hb), fun hall => (hall e w hw hmisfit).elim⟩

end KeyRange

/-- Why there is no scan over a range: there is nothing to scan, or a bound of the range has no key
in the index. The lower bound is looked at first. -/
inductive Store.ScanRefused (s : Store) (table column : String) (range : KeyRange) : Error → Prop
  | noTable (h : ∀ t, s.table table ≠ .ok t) :
    s.ScanRefused table column range (.tableNotFound table)
  | noIndex {t : Table} (ht : s.table table = .ok t) (h : t.indexes.lookup column = none) :
    s.ScanRefused table column range (.indexNotFound table column)
  | low {t : Table} {index : Index} {v : Value} {e : Error} (ht : s.table table = .ok t)
    (hindex : t.indexes.lookup column = some index) (hv : range.low = some v)
    (h : v.Misfit index.keyType e) : s.ScanRefused table column range e
  | high {t : Table} {index : Index} {v : Value} {e : Error} (ht : s.table table = .ok t)
    (hindex : t.indexes.lookup column = some index)
    (hlow : ∀ e w, range.low = some w → ¬w.Misfit index.keyType e) (hv : range.high = some v)
    (h : v.Misfit index.keyType e) : s.ScanRefused table column range e

theorem KeyRange.interval?_eq_error_iff {r : KeyRange} {t : DataType} {e : Error} :
    r.interval? t = .error e ↔ (∃ v, r.low = some v ∧ v.Misfit t e) ∨
      (∀ e w, r.low = some w → ¬w.Misfit t e) ∧ ∃ v, r.high = some v ∧ v.Misfit t e := by
  simp only [interval?, bind_eq_error_iff, bound_eq_error_iff, pure_eq_ok, reduceCtorEq, and_false,
    exists_false, or_false, exists_and_right, exists_bound_iff]

theorem Index.scan_eq_error_iff {index : Index} {range : KeyRange} {e : Error} :
    index.scan range = .error e ↔ range.interval? index.keyType = .error e := by
  rw [scan, bind_eq_error_iff]
  refine or_iff_left ?_
  rintro ⟨_ | i, -, h⟩ <;> cases h

namespace Store

variable {s : Store} {table column : String} {range : KeyRange}

/-- A scan is refused for these reasons, and for no other. -/
theorem indexScan_eq_error_iff {e : Error} :
    s.indexScan table column range = .error e ↔ s.ScanRefused table column range e := by
  cases ht : s.table table with
  | error e' =>
    have hname : e' = .tableNotFound table := by
      unfold Store.table at ht
      split at ht
      · cases ht
      · exact (Except.error.inj ht).symm
    subst hname
    simp only [indexScan, ht, error_bind, Except.error.injEq]
    constructor
    · rintro rfl
      exact .noTable fun t h => by rw [ht] at h; cases h
    · rintro (- | ⟨ht', -⟩ | ⟨ht', -⟩ | ⟨ht', -⟩)
      · rfl
      all_goals
        rw [ht] at ht'
        cases ht'
  | ok t =>
    have hsame : ∀ {t'}, s.table table = .ok t' → t' = t := fun h =>
      Except.ok.inj (h.symm.trans ht)
    cases hindex : t.indexes.lookup column with
    | none =>
      simp only [indexScan, ht, ok_bind, hindex, throw_eq_error, Except.error.injEq]
      constructor
      · rintro rfl
        exact .noIndex ht hindex
      · rintro (hnone | - | ⟨ht', hindex', -⟩ | ⟨ht', hindex', -⟩)
        · exact (hnone t ht).elim
        · rfl
        all_goals
          rw [hsame ht', hindex] at hindex'
          cases hindex'
    | some index =>
      simp only [indexScan, ht, ok_bind, hindex, Index.scan_eq_error_iff,
        KeyRange.interval?_eq_error_iff]
      constructor
      · rintro (⟨v, hv, h⟩ | ⟨hlow, v, hv, h⟩)
        · exact .low ht hindex hv h
        · exact .high ht hindex hlow hv h
      · rintro (hnone | ⟨ht', hindex'⟩ | ⟨ht', hindex', hv, h⟩ | ⟨ht', hindex', hlow, hv, h⟩)
        · exact (hnone t ht).elim
        · rw [hsame ht', hindex] at hindex'
          cases hindex'
        all_goals
          rw [hsame ht', hindex] at hindex'
          obtain rfl := Option.some.inj hindex'
        · exact .inl ⟨_, hv, h⟩
        · exact .inr ⟨hlow, _, hv, h⟩

theorem exists_of_indexScan {scanner : IndexScanner}
    (h : s.indexScan table column range = .ok scanner) :
    ∃ t index, s.table table = .ok t ∧ t.indexes.lookup column = some index ∧
      index.scan range = .ok scanner := by
  obtain ⟨t, ht, hscan⟩ := bind_eq_ok_iff.1 h
  cases hindex : t.indexes.lookup column with
  | none => simp [hindex] at hscan
  | some index => exact ⟨t, index, ht, hindex, by simpa [hindex] using hscan⟩

end Store

/-! ## Rows in a range -/

namespace KeyRange

variable {range : KeyRange} {t : Table} {index : Index} {keyed : List (Key × Row)}

/-- Whether the range contains the indexed value of a row. -/
def containsRow (range : KeyRange) (layout : Layout) (index : Index) (row : Row) :
    Except Error Bool := do
  range.contains (← layout.field row.2 index.column)

/-- The rows of a table that a range contains, each with a value, as an index lists them. -/
structure Finds (range : KeyRange) (t : Table) (index : Index) (found : List (Row × Value)) :
    Prop where
  /-- Of every row it can be said whether the range contains it. -/
  decided : ∀ row ∈ t.rows, ∃ b, range.containsRow t.layout index row = .ok b
  /-- The rows that it contains are found, and no others, and each of them once. -/
  perm : (found.map (·.1)).Perm
    (t.rows.filter fun row => range.containsRow t.layout index row = .ok true)
  /-- The value found with a row is as large as the one in it. -/
  equal : ∀ e ∈ found, ∃ v, t.layout.field e.1.2 index.column = .ok v ∧ e.2.compare v = .ok .eq
  /-- They are in ascending order of the values, and then of the ids. -/
  sorted : found.Pairwise fun e f =>
    e.2.compare f.2 = .ok .lt ∨ e.2.compare f.2 = .ok .eq ∧ e.1.1 < f.1.1

/-- What a scanner gives for an entry that was found. -/
def entry (e : Row × Value) : RowId × Value := (e.1.1, e.2)

/-- The rows in a range. -/
def select (range : KeyRange) (ranked : List (Row × Value)) : List (Row × Value) :=
  ranked.filter fun e => range.contains e.2 = .ok true

/-- A range finds the rows whose keys lie in it, in the order of the index. -/
theorem finds_of_ordered {i? : Option Interval} (hrange : range.interval? index.keyType = .ok i?)
    (h : index.Ordered t.layout t.rows keyed) :
    range.Finds t index (range.select (keyed.map fun e => (e.2, e.1.toValue))) := by
  obtain ⟨i, hcontains⟩ := exists_contains hrange
  have hvalue : ∀ e ∈ keyed, range.contains e.1.toValue = .ok (i.contains e.1) :=
    fun e he => hcontains _ _ (h.lists.typed_eq e he)
  have hrow : ∀ e ∈ keyed, range.containsRow t.layout index e.2 = .ok (i.contains e.1) := by
    intro e he
    obtain ⟨v, hv, hkey⟩ := bind_eq_ok_iff.1 (h.keyOf_eq e he)
    rw [containsRow, hv, ok_bind, hcontains v _ hkey]
  rw [select, List.filter_map]
  refine ⟨fun row hmem => ?_, ?_, fun e he => ?_, ?_⟩
  · obtain ⟨e, he, rfl⟩ := List.mem_map.1 (h.perm.mem_iff.2 hmem)
    exact ⟨_, hrow e he⟩
  · rw [List.map_map]
    refine List.Perm.trans (.of_eq ?_) (h.perm.filter _)
    rw [List.filter_map]
    refine congrArg (List.map _) (List.filter_congr fun e he => ?_)
    simp only [Function.comp_apply, hvalue e he, hrow e he]
  · obtain ⟨f, hf, rfl⟩ := List.mem_map.1 he
    obtain ⟨v, hv, hkey⟩ := bind_eq_ok_iff.1 (h.keyOf_eq f (List.mem_of_mem_filter hf))
    exact ⟨v, hv, Key.toValue_compare hkey⟩
  · rw [List.pairwise_map]
    exact h.lists.sorted_toValue.sublist List.filter_sublist

end KeyRange

/-- A scan has still to give what its range finds. -/
theorem Index.Ordered.exists_finds {index : Index} {t : Table} {keyed : List (Key × Row)}
    {range : KeyRange} {scanner : IndexScanner} (h : index.Ordered t.layout t.rows keyed)
    (hscan : index.scan range = .ok scanner) :
    ∃ found, range.Finds t index found ∧
      scanner.unread.map (fun e => (e.2, e.1.toValue)) = found.map KeyRange.entry := by
  obtain ⟨i?, hrange, -⟩ := bind_eq_ok_iff.1 hscan
  refine ⟨_, KeyRange.finds_of_ordered hrange h, ?_⟩
  rw [(h.lists.unread_scan hscan).2, KeyRange.select, List.filter_map, List.map_map]
  rfl

/-! ## Scans that are open -/

theorem IndexScanner.unread_close (s : IndexScanner) : s.close.unread = [] := rfl

/-- A store with the scans opened on it so far. -/
structure OpenStore where
  store : Store
  scanners : List IndexScanner

/-- What is asked of a store and of its scans, which go by the order in which they were opened. -/
inductive Event where
  | call (visit : Visit) (c : Call)
  | openScan (table column : String) (range : KeyRange)
  | next (scan : Nat)
  | close (scan : Nat)

namespace Event

def reads (i : Nat) : Event → Bool
  | next j => i == j
  | _ => false

def closes (i : Nat) : Event → Bool
  | close j => i == j
  | _ => false

end Event

namespace OpenStore

/-- The store with one more scan, unless it is refused. -/
def openScan (w : OpenStore) (table column : String) (range : KeyRange) : OpenStore :=
  match w.store.indexScan table column range with
  | .ok scanner => { w with scanners := w.scanners ++ [scanner] }
  | .error _ => w

/-- What comes of an event. -/
def step (w : OpenStore) : Event → OpenStore
  | .call visit c =>
    match (c.edit visit).run w.store with
    | .ok _ store | .error _ store => { w with store }
  | .openScan table column range => w.openScan table column range
  | .next i => { w with scanners := w.scanners.modify i (·.next.2) }
  | .close i => { w with scanners := w.scanners.modify i (·.close) }

/-- What a scan answers to the events that ask it for its next entry. -/
def given (i : Nat) : OpenStore → List Event → List (Option (RowId × Value))
  | _, [] => []
  | w, event :: events =>
    let rest := given i (w.step event) events
    match w.scanners[i]? with
    | some scanner => if event.reads i then scanner.next.1 :: rest else rest
    | none => rest

variable {w : OpenStore} {i : Nat} {scanner : IndexScanner} {event : Event}

/-- A scan is moved by its own events only. -/
theorem getElem?_step (h : w.scanners[i]? = some scanner) (event : Event) :
    (w.step event).scanners[i]? =
      some (if event.reads i then scanner.next.2 else
        if event.closes i then scanner.close else scanner) := by
  cases event with
  | call visit c =>
    simp only [step, Event.reads, Event.closes, Bool.false_eq_true, if_false]
    split <;> exact h
  | openScan table column range =>
    simp only [step, openScan, Event.reads, Event.closes, Bool.false_eq_true, if_false]
    split
    · rwa [List.getElem?_append_left (List.getElem?_eq_some_iff.1 h).1]
    · exact h
  | next j =>
    simp only [step, List.getElem?_modify, h, Event.reads, Event.closes, beq_iff_eq,
      Bool.false_eq_true, if_false]
    by_cases hj : i = j
    · simp [hj]
    · simp [hj, Ne.symm hj]
  | close j =>
    simp only [step, List.getElem?_modify, h, Event.reads, Event.closes, beq_iff_eq,
      Bool.false_eq_true, if_false]
    by_cases hj : i = j
    · simp [hj]
    · simp [hj, Ne.symm hj]

/-- The entries one by one, and none after the last. -/
def answers (entries : List (RowId × Value)) (count : Nat) : List (Option (RowId × Value)) :=
  (List.range count).map (entries[·]?)

theorem answers_succ (entries : List (RowId × Value)) (count : Nat) :
    answers entries (count + 1) = entries.head? :: answers entries.tail count := by
  rw [answers, answers, List.range_succ_eq_map, List.map_cons, List.map_map,
    List.head?_eq_getElem?]
  congr 1
  apply List.map_congr_left
  intro n _
  rw [Function.comp_apply, List.getElem?_tail]

/-- **A scan answers with what it has still to give**, one entry for each time that it is asked,
whatever else happens. -/
theorem given_eq (h : w.scanners[i]? = some scanner) {events : List Event}
    (hopen : ∀ event ∈ events, event.closes i = false) :
    w.given i events = answers (scanner.unread.map fun e => (e.2, e.1.toValue))
      (events.countP (·.reads i)) := by
  induction events generalizing w scanner with
  | nil => rfl
  | cons event events ih =>
    obtain ⟨hevent, hevents⟩ := List.forall_mem_cons.1 hopen
    have hstep := getElem?_step h event
    rw [hevent] at hstep
    obtain ⟨hanswer, hrest⟩ := scanner.next_eq
    cases hreads : event.reads i with
    | true =>
      rw [hreads, if_pos rfl] at hstep
      simp only [given, h, hreads, if_true, List.countP_cons, answers_succ, List.head?_map,
        ← List.map_tail, ← hrest, ← hanswer, ih hstep hevents]
    | false =>
      rw [hreads, if_neg Bool.false_ne_true, if_neg Bool.false_ne_true] at hstep
      simp only [given, h, hreads, Bool.false_eq_true, if_false, List.countP_cons, Nat.add_zero,
        ih hstep hevents]

/-- A scan that has nothing to give answers that there is nothing, also when it is closed. -/
theorem given_of_unread_nil (h : w.scanners[i]? = some scanner) (hunread : scanner.unread = [])
    (events : List Event) :
    w.given i events = List.replicate (events.countP (·.reads i)) none := by
  induction events generalizing w scanner with
  | nil => rfl
  | cons event events ih =>
    have hstep := getElem?_step h event
    obtain ⟨hanswer, hrest⟩ := scanner.next_eq
    rw [hunread] at hanswer hrest
    have hrest' := ih hstep (by
      split
      · exact hrest
      · split
        · exact scanner.unread_close
        · exact hunread)
    cases hreads : event.reads i with
    | true =>
      simp only [given, h, hreads, if_true, List.countP_cons, List.replicate_succ, hrest', hanswer,
        List.head?_nil, Option.map_none]
    | false =>
      simp only [given, h, hreads, Bool.false_eq_true, if_false, List.countP_cons, Nat.add_zero,
        hrest']

theorem exists_getElem?_foldl (h : w.scanners[i]? = some scanner) (events : List Event) :
    ∃ scanner', (events.foldl step w).scanners[i]? = some scanner' := by
  induction events generalizing w scanner with
  | nil => exact ⟨scanner, h⟩
  | cons event events ih => exact ih (getElem?_step h event)

theorem given_append (i : Nat) (w : OpenStore) (events later : List Event) :
    w.given i (events ++ later) = w.given i events ++ (events.foldl step w).given i later := by
  induction events generalizing w with
  | nil => rfl
  | cons event events ih =>
    rw [List.cons_append, given, given, ih, List.foldl_cons]
    split
    · split <;> rfl
    · rfl

/-- After it was closed a scan gives nothing. -/
theorem given_close (h : w.scanners[i]? = some scanner) (events later : List Event) :
    w.given i (events ++ .close i :: later) =
      w.given i events ++ List.replicate (later.countP (·.reads i)) none := by
  obtain ⟨scanner', h'⟩ := exists_getElem?_foldl h events
  have hreads : Event.reads i (.close i) = false := rfl
  have hcloses : Event.closes i (.close i) = true := beq_self_eq_true i
  have hclosed := getElem?_step h' (.close i)
  rw [hreads, if_neg Bool.false_ne_true, hcloses, if_pos rfl] at hclosed
  rw [given_append, given]
  simp only [h', hreads, Bool.false_eq_true, if_false]
  rw [given_of_unread_nil hclosed scanner'.unread_close]

theorem openScan_eq {table column : String} {range : KeyRange}
    (h : w.store.indexScan table column range = .ok scanner) :
    (w.openScan table column range).scanners[w.scanners.length]? = some scanner := by
  rw [openScan, h]
  exact List.getElem?_concat_length

/-- **A scan over a range gives what the range contains**, in the order of the index, as of its
opening, and after that nothing; and there is such a scan unless it is refused for the table, the
index or a bound. The texts of the table have fewer than 2 ^ 32 bytes each: the length of a longer
one is not read back, so that the scan may give its row for another value than it holds. -/
theorem scan_exact {table column : String} {range : KeyRange} (hstore : w.store.Reachable) :
    (∀ e, w.store.indexScan table column range = .error e ↔
      w.store.ScanRefused table column range e) ∧
    ((∀ e, ¬w.store.ScanRefused table column range e) →
      (∀ t, w.store.table table = .ok t → t.Short) →
      ∃ t index a found, w.store.table table = .ok t ∧ t.indexes.lookup column = some index ∧
        t.schema.find column = .ok (index.column, a) ∧ index.keyType = a.dataType ∧
        range.Finds t index found ∧
        (∀ events, (∀ event ∈ events, event.closes w.scanners.length = false) →
          (w.openScan table column range).given w.scanners.length events =
            answers (found.map KeyRange.entry) (events.countP (·.reads w.scanners.length))) ∧
        ∀ events later, (w.openScan table column range).given w.scanners.length
            (events ++ .close w.scanners.length :: later) =
          (w.openScan table column range).given w.scanners.length events ++
            List.replicate (later.countP (·.reads w.scanners.length)) none) := by
  refine ⟨fun e => Store.indexScan_eq_error_iff, fun hok hshort => ?_⟩
  cases hscan : w.store.indexScan table column range with
  | error e => exact (hok e (Store.indexScan_eq_error_iff.1 hscan)).elim
  | ok scanner =>
    obtain ⟨t, index, ht, hindex, hopened⟩ := Store.exists_of_indexScan hscan
    have hsound := hstore.sound_of_table ht
    obtain ⟨a, ha, htype⟩ := hsound.indexed _ (mem_of_lookup hindex)
    obtain ⟨keyed, hordered⟩ := (hshort t ht).exists_ordered hindex
    obtain ⟨found, hfinds, hunread⟩ := hordered.exists_finds hopened
    have hscanner := openScan_eq hscan
    refine ⟨t, index, a, found, ht, hindex, ha, htype, hfinds, fun events hevents => ?_,
      fun events later => given_close hscanner events later⟩
    rw [given_eq hscanner hevents, hunread]

/-- A table with both zeros and another number between them, and an index on it. -/
def zeros : OpenStore where
  store := (Session.replay 64 ([.createTable "t" [.real "x"], .createIndex "t" "x",
    .insert "t" [.real (.zero true)], .insert "t" [.real (.ofInt 1)],
    .insert "t" [.real (.zero false)]].map (⟨id, .refl⟩, ·))).store
  scanners := []

/-- A scan of one zero gives both, and not the one that is inserted while it is open. -/
theorem scan_exact_zeros :
    ∃ t index found, zeros.store.table "t" = .ok t ∧
      (KeyRange.point (.real (.zero false))).Finds t index found ∧ found.length = 2 ∧
      (zeros.openScan "t" "x" (.point (.real (.zero false)))).given 0
        [.next 0, .call ⟨id, .refl⟩ (.insert "t" [.real (.zero false)]), .next 0, .next 0] =
      answers (found.map KeyRange.entry) 3 := by
  have hreachable : zeros.store.Reachable := (Session.sound_replay 64 _).reachable
  obtain ⟨t, ht, hlayout, hrows⟩ : ∃ t, zeros.store.table "t" = .ok t ∧
      t.layout = ⟨[.real "x"], 64⟩ ∧
      t.rows = [(1, ⟨[0, 0, 0, 128]⟩), (2, ⟨[0, 0, 128, 63]⟩), (3, ⟨[0, 0, 0, 0]⟩)] :=
    ⟨_, by rfl, by rfl, by rfl⟩
  have hlimit : zeros.store.maxTupleSize < 2 ^ 32 := by decide
  have hshort : ∀ t', zeros.store.table "t" = .ok t' → t'.Short := by
    intro t' ht'
    exact hreachable.short hlimit _ (Store.mem_tables_of_table ht')
  obtain ⟨scanner, hopened⟩ : ∃ scanner,
      zeros.store.indexScan "t" "x" (.point (.real (.zero false))) = .ok scanner := ⟨_, by rfl⟩
  obtain ⟨hrefused, hscan⟩ :=
    @scan_exact zeros "t" "x" (.point (.real (.zero false))) hreachable
  have haccepted : ∀ e, ¬zeros.store.ScanRefused "t" "x" (.point (.real (.zero false))) e := by
    intro e he
    rw [← hrefused, hopened] at he
    cases he
  obtain ⟨t', index, a, found, ht', -, ha, -, hfinds, hgiven, -⟩ := hscan haccepted hshort
  obtain rfl := Except.ok.inj (ht.symm.trans ht')
  refine ⟨t, index, found, ht, hfinds, ?_, hgiven _ (by decide)⟩
  have hcolumn : index.column = 0 := by
    rw [Table.schema, hlayout] at ha
    exact (Prod.mk.inj (Except.ok.inj ha)).1.symm
  have hperm := hfinds.perm.length_eq
  rw [List.length_map, hrows, hlayout] at hperm
  simp only [KeyRange.containsRow, hcolumn] at hperm
  exact hperm.trans (by decide)

/-- A row with a text of 2 ^ 32 bytes is read as one of the empty text, but not given for it. -/
theorem scan_not_always_exact :
    ¬∀ (w : OpenStore) (table column : String) (range : KeyRange), w.store.Reachable →
      (∀ e, ¬w.store.ScanRefused table column range e) →
      ∃ t index found, w.store.table table = .ok t ∧ t.indexes.lookup column = some index ∧
        range.Finds t index found ∧
        ∀ events, (∀ event ∈ events, event.closes w.scanners.length = false) →
          (w.openScan table column range).given w.scanners.length events =
            answers (found.map KeyRange.entry) (events.countP (·.reads w.scanners.length)) := by
  intro hall
  obtain ⟨bytes, hlength⟩ : ∃ bytes : List UInt8, bytes.length = 2 ^ 32 :=
    ⟨List.replicate (2 ^ 32) 0, List.length_replicate⟩
  let w : OpenStore := ⟨.overlong bytes, []⟩
  obtain ⟨scanner, hscan⟩ : ∃ scanner,
      w.store.indexScan "r" "s" (.point (.text [])) = .ok scanner := ⟨_, rfl⟩
  have haccepted : ∀ e, ¬w.store.ScanRefused "r" "s" (.point (.text [])) e := by
    intro e he
    rw [← Store.indexScan_eq_error_iff, hscan] at he
    cases he
  obtain ⟨t, index, found, ht, hindex, hfinds, hgiven⟩ :=
    hall w "r" "s" (.point (.text [])) (Store.reachable_overlong (Nat.le_of_eq hlength)) haccepted
  obtain rfl : .overlong bytes = t := Except.ok.inj ht
  obtain rfl : .overlong bytes = index := Option.some.inj hindex
  have hrow : (1, ⟨Value.encode (.text bytes)⟩) ∈ found.map (·.1) := by
    refine hfinds.perm.mem_iff.2 (List.mem_filter.2 ⟨List.mem_cons_self, decide_eq_true ?_⟩)
    exact bind_eq_ok_iff.2 ⟨.text [], Layout.field_long hlength _ _ _, rfl⟩
  have hnext := hgiven [.next 0] (List.forall_mem_singleton.2 rfl)
  have honce : [Event.next 0].countP (·.reads w.scanners.length) = 1 := rfl
  rw [given_eq (openScan_eq hscan) (List.forall_mem_singleton.2 rfl),
    Index.unread_overlong hlength hscan, honce] at hnext
  cases found with
  | nil => exact List.not_mem_nil hrow
  | cons e found => simp [answers] at hnext

end OpenStore

end QueryEngine
