import QueryEngine.Operator.BlockJoin
import QueryEngine.Operator.IndexJoin
import QueryEngine.Proofs.Operator.HashJoin
import QueryEngine.Proofs.Operator.Keeping

/-!
# Joins keep contracts

A join keeps the contracts of both its children, and what it holds between them is made of their
tuples: a block and a right tuple, a left tuple with ranges, or partitions with a table.
-/

namespace QueryEngine

variable {w : Setting} {good : Tuple → Prop} {running : Bool} {db : Database} {n : Nat}

namespace BlockJoin

variable {join : BlockJoin} {left : Operator} {c : Contract w left.State}
  {d : Contract w TableScan.State} {goodLeft goodRight : Tuple → Prop}

/-- The tuples between the two children are good. -/
def Phase.Fit (goodLeft goodRight : Tuple → Prop) : Phase → Prop
  | .filling => True
  | .joining pending current =>
    (∀ t ∈ pending, goodLeft t) ∧ ∀ p ∈ current, goodRight p.1 ∧ ∀ t ∈ p.2, goodLeft t

/-- Both children keep their contracts. -/
def contract (c : Contract w left.State) (d : Contract w TableScan.State)
    (goodLeft goodRight : Tuple → Prop) : Contract w (State left.State) :=
  ((c.on State.left).and (d.on State.right)).and
    (.always w fun s => (∀ t ∈ s.block.toList, goodLeft t) ∧ s.phase.Fit goodLeft goodRight)

/-- Going back to the first row keeps the contract as opening does. -/
def Rewinds (d : Contract w TableScan.State) : Prop :=
  ∀ ⦃running db s⦄, d.holds running db s → d.Starts running db (TableScan.rewind s)

theorem starts {s : State left.State} (hstart : c.Starts running db (left.start db s.left))
    (hright : join.right.operator.Keeps d goodRight) (hdb : w.changes db db)
    (hs : (contract c d goodLeft goodRight).holds running db s) :
    (contract c d goodLeft goodRight).Starts running db (join.start left db s) := by
  obtain ⟨⟨-, hr⟩, hfit⟩ := hs
  unfold start
  split
  · rename_i hc
    rw [hc] at hstart
    exact ⟨hstart.1, ⟨hstart.2, d.relax hr⟩, hfit⟩
  · rename_i l hc
    rw [hc] at hstart
    have hstartRight : d.Starts running db (join.right.start db _) := hright.start hdb hr
    split
    · rename_i hcr
      rw [hcr] at hstartRight
      exact ⟨hstartRight.1, ⟨c.weaken hstart, hstartRight.2⟩, hfit⟩
    · rename_i r hcr
      rw [hcr] at hstartRight
      exact ⟨⟨hstart, hstartRight⟩, fun _ h => (nomatch h), trivial⟩

/-- Going on to the right table keeps the contract. -/
theorem steps_complete (hrewinds : Rewinds d) {s : State left.State} {pending : Option Tuple}
    (hl : c.holds running db s.left) (hr : d.holds running db s.right)
    (hblock : ∀ t ∈ s.block.toList, goodLeft t) (hpending : ∀ t ∈ pending, goodLeft t) :
    (contract c d goodLeft goodRight).Steps good running db (s.complete pending n) := by
  have hrewind := hrewinds hr
  have hphase : (Phase.joining pending none).Fit goodLeft goodRight :=
    ⟨hpending, fun _ h => nomatch h⟩
  unfold State.complete
  split
  · rename_i e r hc
    rw [hc] at hrewind
    exact ⟨fun h => (hrewind.1 h).1, ⟨c.relax hl, hrewind.2⟩, hblock, hphase⟩
  · rename_i r hc
    rw [hc] at hrewind
    exact ⟨⟨hl, d.of_run hrewind⟩, hblock, hphase⟩

theorem steps_fill (hchild : left.Pulled c goodLeft) (hrewinds : Rewinds d)
    (hdb : w.changes db db) {s : State left.State}
    (hs : (contract c d goodLeft goodRight).holds running db s) :
    (contract c d goodLeft goodRight).Steps good running db (join.fill left db s n) := by
  obtain ⟨⟨hl, hr⟩, hblock, hphase⟩ := hs
  have hnext := hchild hdb hl n
  unfold fill
  split
  · split
    · exact ⟨⟨hl, hr⟩, hblock, hphase⟩
    · exact steps_complete hrewinds hl hr hblock fun _ h => nomatch h
  · split
    · rename_i hc
      rw [hc] at hnext
      exact ⟨hnext.1, ⟨hnext.2, d.relax hr⟩, hblock, hphase⟩
    · rename_i hc
      rw [hc] at hnext
      exact ⟨⟨hnext, hr⟩, hblock, hphase⟩
    · rename_i t l k hc
      rw [hc] at hnext
      simp only
      split
      · exact steps_complete (s := { s with left := l }) hrewinds hnext.2 hr hblock
          fun u hu => Option.mem_some_iff.1 hu ▸ hnext.1
      · refine ⟨⟨hnext.2, hr⟩, fun u hu => ?_, hphase⟩
        rw [State.take, Pile.toList_push] at hu
        rcases List.mem_append.1 hu with hu | hu
        · exact hblock u hu
        · exact List.mem_singleton.1 hu ▸ hnext.1

/-- What a join does with a pair of tuples, when both are good. -/
structure Joins (join : BlockJoin) (w : Setting) (goodLeft goodRight good : Tuple → Prop) :
    Prop where
  evaluate : ∀ l r, goodLeft l → goodRight r →
    Meets (fun _ => True) w.may (join.predicate.evaluate l r)
  joinWithin : ∀ l r, goodLeft l → goodRight r → Meets good w.may (l.joinWithin join.maxTupleSize r)

theorem steps_test (hjoins : join.Joins w goodLeft goodRight good) {l r : Tuple} (hl : goodLeft l)
    (hr : goodRight r) {s : State left.State}
    (hs : (contract c d goodLeft goodRight).holds running db s) :
    (contract c d goodLeft goodRight).Steps good running db (join.test l r s n) := by
  have heval := hjoins.evaluate l r hl hr
  have hjoin := hjoins.joinWithin l r hl hr
  unfold test
  split
  · rename_i he
    rw [he] at heval
    exact ⟨fun _ => heval, Contract.relax hs⟩
  · exact hs
  · split
    · rename_i he
      rw [he] at hjoin
      exact ⟨fun _ => hjoin, Contract.relax hs⟩
    · rename_i he
      rw [he] at hjoin
      exact ⟨hjoin, hs⟩

theorem steps (hchild : left.Pulled c goodLeft) (hright : join.right.operator.Keeps d goodRight)
    (hrewinds : Rewinds d) (hjoins : join.Joins w goodLeft goodRight good) (hdb : w.changes db db)
    {s : State left.State} (hs : (contract c d goodLeft goodRight).holds running db s) :
    (contract c d goodLeft goodRight).Steps good running db (join.step left db s n) := by
  unfold step
  split
  · exact hs
  · obtain ⟨⟨hl, hr⟩, hblock, hphase⟩ := id hs
    split
    · exact steps_fill hchild hrewinds hdb hs
    · rename_i pending r l untested hp
      rw [hp] at hphase
      obtain ⟨hpending, hcurrent⟩ := hphase
      obtain ⟨hgood, huntested⟩ := hcurrent _ rfl
      refine steps_test hjoins (huntested l List.mem_cons_self) hgood
        ⟨⟨hl, hr⟩, hblock, hpending, ?_⟩
      intro p hp'
      obtain rfl := Option.mem_some_iff.1 hp'
      exact ⟨hgood, fun t ht => huntested t (List.mem_cons_of_mem _ ht)⟩
    · rename_i pending r hp
      rw [hp] at hphase
      exact ⟨⟨hl, hr⟩, hblock, hphase.1, fun _ h => nomatch h⟩
    · rename_i pending hp
      rw [hp] at hphase
      have hnext : d.Pulls goodRight running db ⟨(TableScan.next s.right).1, _, n⟩ :=
        hright.next hdb hr n
      split
      · rename_i hc
        rw [hc] at hnext
        exact ⟨hnext.1, ⟨c.relax hl, hnext.2⟩, hblock, by rw [hp]; exact hphase⟩
      · rename_i hc
        rw [hc] at hnext
        refine ⟨⟨hl, hnext⟩, fun t ht => ?_, trivial⟩
        rw [State.nextBlock, Pile.toList_ofList] at ht
        exact hphase.1 t (Option.mem_toList.1 ht)
      · rename_i r _ hc
        rw [hc] at hnext
        refine ⟨⟨hl, hnext.2⟩, hblock, hphase.1, fun p hp' => ?_⟩
        obtain rfl := Option.mem_some_iff.1 hp'
        exact ⟨hnext.1, hblock⟩

theorem keeps (hchild : left.Keeps c goodLeft) (hright : join.right.operator.Keeps d goodRight)
    (hrewinds : Rewinds d) (hjoins : join.Joins w goodLeft goodRight good) :
    (join.machine left).Keeps (contract c d goodLeft goodRight) good where
  initial hdb := ⟨⟨hchild.initial hdb, hright.initial hdb⟩, fun _ h => (nomatch h), trivial⟩
  start hdb hs := starts (hchild.start hdb hs.1.1) hright hdb hs
  step hdb hs _ := steps hchild.pulled hright hrewinds hjoins hdb hs
  close hs := ⟨⟨hchild.close hs.1.1, hright.close hs.1.2⟩, fun _ h => (nomatch h), trivial⟩

end BlockJoin

namespace IndexJoin

variable {join : IndexJoin} {left : Operator} {c : Contract w left.State}
  {goodLeft goodRight : Tuple → Prop} {source : join.right.Source w goodRight}
  {asked : KeyRange → Prop}

/-- What a join does with a left tuple and with a pair of tuples, when they are good. -/
structure Joins (join : IndexJoin) (source : join.right.Source w goodRight)
    (goodLeft good : Tuple → Prop) (asked : KeyRange → Prop) : Prop where
  rangesOf : ∀ t, goodLeft t → Meets (∀ range ∈ ·, asked range) w.may (join.rangesOf t)
  indexScan : ∀ {db range}, w.changes db db → asked range → source.indexed db →
    Meets (fun _ => True) w.may (db.store.indexScan join.right.table join.right.column range)
  joinWithin : ∀ l r, goodLeft l → goodRight r → Meets good w.may (l.joinWithin join.maxTupleSize r)

/-- Both children keep their contracts. The left tuple is good, and its ranges are asked for. -/
def contract (c : Contract w left.State) (source : join.right.Source w goodRight)
    (goodLeft : Tuple → Prop) (asked : KeyRange → Prop) : Contract w (State left.State) :=
  ((c.on State.left).and (source.contract.on State.right)).and
    (.always w fun s => ∀ p ∈ s.probe, goodLeft p.tuple ∧ ∀ range ∈ p.ranges, asked range)

theorem starts (hchild : left.Keeps c goodLeft) (hdb : w.changes db db) {s : State left.State}
    (hs : (contract c source goodLeft asked).holds running db s) :
    (contract c source goodLeft asked).Starts running db (join.start left db s) := by
  obtain ⟨⟨hl, hr⟩, hprobe⟩ := hs
  have hstart := hchild.start hdb hl
  unfold start
  split
  · rename_i hc
    rw [hc] at hstart
    exact ⟨hstart.1, ⟨hstart.2, Contract.relax hr⟩, hprobe⟩
  · rename_i l hc
    rw [hc] at hstart
    have hright := source.starts hdb hr
    split
    · rename_i hcr
      rw [hcr] at hright
      exact ⟨hright.1, ⟨c.weaken hstart, hright.2⟩, hprobe⟩
    · rename_i r hcr
      rw [hcr] at hright
      exact ⟨⟨hstart, hright⟩, fun _ h => nomatch h⟩

theorem steps_advance (hchild : left.Keeps c goodLeft)
    (hjoins : join.Joins source goodLeft good asked) (hdb : w.changes db db) {s : State left.State}
    (hs : (contract c source goodLeft asked).holds running db s) :
    (contract c source goodLeft asked).Steps good running db (join.advance left db s n) := by
  obtain ⟨⟨hl, hr⟩, hprobe⟩ := hs
  have hnext := hchild.next hdb hl n
  unfold advance
  split
  · rename_i hc
    rw [hc] at hnext
    exact ⟨hnext.1, ⟨hnext.2, Contract.relax hr⟩, hprobe⟩
  · rename_i hc
    rw [hc] at hnext
    exact ⟨⟨hnext, hr⟩, hprobe⟩
  · rename_i t _ _ hc
    rw [hc] at hnext
    have hranges := hjoins.rangesOf t hnext.1
    split
    · rename_i he
      rw [he] at hranges
      exact ⟨fun _ => hranges, ⟨c.relax hnext.2, Contract.relax hr⟩, hprobe⟩
    · rename_i ranges he
      rw [he] at hranges
      refine ⟨⟨hnext.2, hr⟩, fun p hp => ?_⟩
      obtain rfl := Option.mem_some_iff.1 hp
      exact ⟨hnext.1, hranges⟩

theorem steps_fetch (hjoins : join.Joins source goodLeft good asked) (hdb : w.changes db db)
    {s : State left.State} {probe : Probe} (hp : s.probe = some probe)
    (hs : (contract c source goodLeft asked).holds running db s) :
    (contract c source goodLeft asked).Steps good running db (join.fetch db probe s n) := by
  obtain ⟨⟨hl, hr⟩, hprobe⟩ := hs
  obtain ⟨htuple, hranges⟩ := hprobe probe hp
  have hnext := source.pulls hdb hr n
  unfold fetch
  split
  · rename_i hc
    rw [hc] at hnext
    exact ⟨hnext.1, ⟨c.relax hl, hnext.2⟩, hprobe⟩
  · rename_i hc
    rw [hc] at hnext
    refine ⟨⟨hl, hnext⟩, fun p hp' => ?_⟩
    obtain rfl := Option.mem_some_iff.1 hp'
    exact ⟨htuple, hranges⟩
  · rename_i t _ _ hc
    rw [hc] at hnext
    have hjoin := hjoins.joinWithin probe.tuple t htuple hnext.1
    split
    · rename_i he
      rw [he] at hjoin
      exact ⟨fun _ => hjoin, ⟨c.relax hl, Contract.relax hnext.2⟩, hprobe⟩
    · rename_i he
      rw [he] at hjoin
      exact ⟨hjoin, ⟨hl, hnext.2⟩, hprobe⟩

theorem steps_move (hjoins : join.Joins source goodLeft good asked) (hdb : w.changes db db)
    {s : State left.State} {t : Tuple} {range : KeyRange} {ranges : List KeyRange}
    (hp : s.probe = some ⟨t, range :: ranges, false⟩)
    (hs : (contract c source goodLeft asked).holds running db s) :
    (contract c source goodLeft asked).Steps good running db
      (join.move db t range ranges s n) := by
  obtain ⟨⟨hl, hr⟩, hprobe⟩ := hs
  obtain ⟨htuple, hranges⟩ := hprobe _ hp
  have hmoved := source.folds_setRange hdb hr
    (hjoins.indexScan hdb (hranges range List.mem_cons_self)) n
  have hrest : ∀ scanning, ∀ p ∈ some (⟨t, ranges, scanning⟩ : Probe),
      goodLeft p.tuple ∧ ∀ range ∈ p.ranges, asked range := by
    intro scanning p hp'
    obtain rfl := Option.mem_some_iff.1 hp'
    exact ⟨htuple, fun range hrange => hranges range (List.mem_cons_of_mem _ hrange)⟩
  unfold move
  split
  · rename_i hc
    rw [hc] at hmoved
    exact ⟨hmoved.1, ⟨c.relax hl, hmoved.2⟩, hrest false⟩
  · rename_i hc
    rw [hc] at hmoved
    exact ⟨⟨hl, hmoved.2⟩, hrest true⟩

theorem keeps (hchild : left.Keeps c goodLeft) (hjoins : join.Joins source goodLeft good asked) :
    (join.machine left).Keeps (contract c source goodLeft asked) good where
  initial hdb := ⟨⟨hchild.initial hdb, source.keeps.initial hdb⟩, fun _ h => nomatch h⟩
  start hdb hs := starts hchild hdb hs
  step {running db s} hdb hs n := by
    show (contract c source goodLeft asked).Steps good running db (join.step left db s n)
    unfold step
    split
    · exact hs
    · split
      · exact steps_advance hchild hjoins hdb hs
      · rename_i hp
        exact steps_fetch hjoins hdb hp hs
      · rename_i hp
        exact steps_move hjoins hdb hp hs
      · exact ⟨hs.1, fun _ h => nomatch h⟩
  close {_ _ s} hs :=
    ⟨⟨hchild.close hs.1.1, source.holds_close s.right⟩, fun _ h => nomatch h⟩

end IndexJoin

namespace HashJoin

open Spill

variable {join : HashJoin} {left right : Operator} {c : Contract w left.State}
  {d : Contract w right.State} {goodOn : Side → Tuple → Prop}

/-- What a join does with tuples of its two sides, when they are good. -/
structure Joins (join : HashJoin) (w : Setting) (goodOn : Side → Tuple → Prop)
    (good : Tuple → Prop) : Prop where
  keyOn : ∀ side t, goodOn side t → Meets (fun _ => True) w.may (join.keyOn side t)
  /-- A tuple that has no room in a file. -/
  push : ∀ t, join.medium.takes t = false → w.may (.tupleTooLarge t.length (2 ^ 32 - 1))
  joinWithin : ∀ l r, goodOn .left l → goodOn .right r →
    Meets good w.may (l.joinWithin join.maxTupleSize r)

/-- The tuples can be read back, and are good ones of a side. -/
def FitTuples (join : HashJoin) (goodOn : Side → Tuple → Prop) (side : Side)
    (tuples : List Tuple) : Prop :=
  ∀ t ∈ tuples, join.medium.takes t = true ∧ goodOn side t

/-- A partition of good tuples of a side. -/
def FitPartition (join : HashJoin) (goodOn : Side → Tuple → Prop) (side : Side)
    (p : Partition) : Prop :=
  ∃ tuples, p = .ofTuples join.medium tuples ∧ join.FitTuples goodOn side tuples

/-- A table of good tuples of a side. -/
def FitTable (join : HashJoin) (goodOn : Side → Tuple → Prop) (side : Side)
    (table : Multimap Tuple) : Prop :=
  table.keyType = join.predicate.keyType ∧ ∀ k, ∀ t ∈ table.bucket k, goodOn side t

/-- A partition that is joined: good tuples of one side in the table, of the other elsewhere. -/
structure Active.Fit (join : HashJoin) (goodOn : Side → Tuple → Prop) (active : Active) :
    Prop where
  table : join.FitTable goodOn active.build active.table
  reader : ∃ tuples, active.reader = .ofTuples join.medium tuples ∧
    join.FitTuples goodOn active.build.other tuples
  probe : ∀ p ∈ active.probe, goodOn active.build.other p.1 ∧ ∀ t ∈ p.2, goodOn active.build t

/-- All that is held is good. -/
def Phase.Fit (join : HashJoin) (goodOn : Side → Tuple → Prop) : Phase → Prop
  | .spreading => True
  | .joining pending active =>
    (∀ p ∈ pending, join.FitPartition goodOn .left p.1 ∧ join.FitPartition goodOn .right p.2) ∧
      ∀ a ∈ active, a.Fit join goodOn

/-- Nothing is held that is not good once everything was let go. -/
theorem Phase.fit_close (phase : Phase) : phase.close.Fit join goodOn := by
  cases phase with
  | spreading => trivial
  | joining => exact ⟨fun _ h => (nomatch h), fun _ h => nomatch h⟩

/-- Both children keep their contracts. -/
def contract (join : HashJoin) (c : Contract w left.State) (d : Contract w right.State)
    (goodOn : Side → Tuple → Prop) : Contract w (State left.State right.State) :=
  ((c.on State.left).and (d.on State.right)).and
    (.always w fun s => s.phase.Fit join goodOn)

/-! ### Spreading -/

theorem fitPartition_noTuples (side : Side) {i : Nat} (hi : i < join.partitions) :
    join.FitPartition goodOn side join.noTuples[i] :=
  ⟨[], by rw [noTuples, Vector.getElem_replicate, Partition.ofTuples_nil], fun _ h => nomatch h⟩

theorem meets_push (hjoins : join.Joins w goodOn good) {side : Side} {t : Tuple}
    (ht : goodOn side t) {p : Partition} (hp : join.FitPartition goodOn side p) :
    Meets (join.FitPartition goodOn side) w.may (p.push t) := by
  obtain ⟨tuples, rfl, htuples⟩ := hp
  cases htakes : join.medium.takes t with
  | false =>
    rw [Partition.push_eq_error htakes]
    exact hjoins.push t htakes
  | true =>
    rw [Partition.push_ofTuples htakes]
    refine ⟨_, rfl, fun u hu => ?_⟩
    rcases List.mem_append.1 hu with hu | hu
    · exact htuples u hu
    · exact List.mem_singleton.1 hu ▸ ⟨htakes, ht⟩

theorem meets_place (hjoins : join.Joins w goodOn good) (side : Side) {parts : join.Partitions}
    (hparts : ∀ i (hi : i < join.partitions), join.FitPartition goodOn side parts[i]) {t : Tuple}
    (ht : goodOn side t) :
    Meets (fun parts => ∀ i (hi : i < join.partitions), join.FitPartition goodOn side parts[i])
      w.may (join.place side parts t) := by
  have hkey := hjoins.keyOn side t ht
  cases hk : join.keyOn side t with
  | error e =>
    rw [hk] at hkey
    rw [place_of_keyOn_error parts hk]
    exact hkey
  | ok k =>
    rw [place_of_keyOn parts hk]
    refine (meets_push hjoins ht (hparts _ (join.slot k).isLt)).bind fun part hpart => ?_
    intro i hi
    rw [Vector.getElem_set]
    split
    · exact hpart
    · exact hparts i hi

theorem steps_spread (hleft : left.Pulled c (goodOn .left))
    (hright : right.Pulled d (goodOn .right))
    (hjoins : join.Joins w goodOn good) (hdb : w.changes db db) {s : State left.State right.State}
    (hs : (join.contract c d goodOn).holds running db s) :
    (join.contract c d goodOn).Steps good running db (join.spread left right db s n) := by
  obtain ⟨⟨hl, hr⟩, hphase⟩ := hs
  have hfoldLeft := hleft.fold hdb (fun parts t hparts ht => meets_place hjoins .left hparts ht)
    (fun i hi => fitPartition_noTuples .left hi) hl n
  unfold spread
  split
  · rename_i hc
    rw [hc] at hfoldLeft
    exact ⟨hfoldLeft.1, ⟨hfoldLeft.2, d.relax hr⟩, hphase⟩
  · rename_i lefts l k hc
    rw [hc] at hfoldLeft
    have hfoldRight := hright.fold hdb
      (fun parts t hparts ht => meets_place hjoins .right hparts ht)
      (fun i hi => fitPartition_noTuples .right hi) hr k
    split
    · rename_i hcr
      rw [hcr] at hfoldRight
      exact ⟨hfoldRight.1, ⟨c.relax hfoldLeft.2, hfoldRight.2⟩, hphase⟩
    · rename_i rights r k' hcr
      rw [hcr] at hfoldRight
      refine ⟨⟨hfoldLeft.2, hfoldRight.2⟩, fun p hp => ?_, fun _ h => nomatch h⟩
      obtain ⟨i, hi, rfl⟩ := Vector.mem_iff_getElem.1 (Vector.mem_toList_iff.1 hp)
      rw [Vector.getElem_zip]
      exact ⟨hfoldLeft.1 i hi, hfoldRight.1 i hi⟩

/-! ### Joining a partition -/

theorem fitTable_empty (side : Side) :
    join.FitTable goodOn side (.empty join.predicate.keyType) :=
  ⟨rfl, fun _ _ h => nomatch h⟩

theorem meets_insert (hjoins : join.Joins w goodOn good) {side : Side} {t : Tuple}
    (ht : goodOn side t) {table : Multimap Tuple} (htable : join.FitTable goodOn side table) :
    Meets (join.FitTable goodOn side) w.may
      (do table.insert (← join.predicate.valueOn side t) t) := by
  have hkey := hjoins.keyOn side t ht
  rw [keyOn_eq] at hkey
  cases hv : join.predicate.valueOn side t with
  | error e =>
    rw [hv, error_bind] at hkey
    exact hkey
  | ok v =>
    rw [hv, ok_bind] at hkey
    rw [ok_bind]
    cases hk : Key.typed v join.predicate.keyType with
    | error e =>
      rw [hk] at hkey
      rw [Multimap.insert, htable.1, hk, error_bind]
      exact hkey
    | ok k =>
      obtain ⟨table', hinsert, htype, hbucket⟩ := Multimap.bucket_insert (htable.1.symm ▸ hk) t
      rw [hinsert]
      refine ⟨htype.trans htable.1, fun l u hu => ?_⟩
      rw [hbucket] at hu
      split at hu
      · rcases List.mem_append.1 hu with hu | hu
        · exact htable.2 k u hu
        · exact List.mem_singleton.1 hu ▸ ht
      · exact htable.2 l u hu

theorem meets_load (hjoins : join.Joins w goodOn good) {l r : Partition}
    (hl : join.FitPartition goodOn .left l) (hr : join.FitPartition goodOn .right r) :
    Meets (∀ a ∈ ·, a.Fit join goodOn) w.may (join.load l r) := by
  have htable : ∀ side tuples, join.FitTuples goodOn side tuples →
      Meets (join.FitTable goodOn side) w.may
        ((Reader.ofTuples join.medium tuples).fold (fun table t => do
          table.insert (← join.predicate.valueOn side t) t) (.empty join.predicate.keyType)) := by
    intro side tuples htuples
    rw [Reader.fold_ofTuples _ _ fun t ht => (htuples t ht).1]
    exact Meets.foldlM (fitTable_empty side) fun table htable t ht =>
      meets_insert hjoins (htuples t ht).2 htable
  obtain ⟨lefts, rfl, hlefts⟩ := hl
  obtain ⟨rights, rfl, hrights⟩ := hr
  unfold load
  split
  · exact fun _ h => nomatch h
  · by_cases hle : lefts.length ≤ rights.length
    · simp only [Partition.count_ofTuples, hle, if_true, Reader.reader_ofTuples]
      refine (htable .left lefts hlefts).bind fun table hfit => ?_
      rintro a ⟨⟩
      exact ⟨hfit, ⟨rights, rfl, hrights⟩, fun _ h => nomatch h⟩
    · simp only [Partition.count_ofTuples, hle, if_false, Reader.reader_ofTuples]
      refine (htable .right rights hrights).bind fun table hfit => ?_
      rintro a ⟨⟩
      exact ⟨hfit, ⟨lefts, rfl, hlefts⟩, fun _ h => nomatch h⟩

theorem meets_matchesOf (hjoins : join.Joins w goodOn good) {active : Active}
    (hactive : active.Fit join goodOn) {t : Tuple} (ht : goodOn active.build.other t) :
    Meets (∀ u ∈ ·, goodOn active.build u) w.may (join.matchesOf active t) := by
  have hkey := hjoins.keyOn active.build.other t ht
  rw [keyOn_eq] at hkey
  unfold matchesOf
  cases hv : join.predicate.valueOn active.build.other t with
  | error e =>
    rw [hv, error_bind] at hkey
    exact hkey
  | ok v =>
    rw [hv, ok_bind] at hkey
    rw [ok_bind]
    cases hk : Key.typed v join.predicate.keyType with
    | error e =>
      rw [hk] at hkey
      rw [Multimap.get, hactive.table.1, hk, error_bind]
      exact hkey
    | ok k =>
      rw [Multimap.get_of_typed (hactive.table.1.symm ▸ hk)]
      exact hactive.table.2 k

theorem meets_pair (hjoins : join.Joins w goodOn good) {build : Side} {probe found : Tuple}
    (hprobe : goodOn build.other probe) (hfound : goodOn build found) :
    Meets good w.may (join.pair build probe found) := by
  cases build with
  | left => exact hjoins.joinWithin found probe hfound hprobe
  | right => exact hjoins.joinWithin probe found hprobe hfound

theorem steps_readProbe (hjoins : join.Joins w goodOn good) {s : State left.State right.State}
    {pending : List (Partition × Partition)} {active : Active}
    (hp : s.phase = .joining pending (some active))
    (hs : (join.contract c d goodOn).holds running db s) :
    (join.contract c d goodOn).Steps good running db (join.readProbe pending active s n) := by
  obtain ⟨⟨hl, hr⟩, hphase⟩ := id hs
  replace hphase : s.phase.Fit join goodOn := hphase
  rw [hp] at hphase
  obtain ⟨hpending, hactive⟩ := hphase
  have hfit := hactive active rfl
  obtain ⟨tuples, hreader, htuples⟩ := hfit.reader
  unfold readProbe
  rw [hreader]
  cases tuples with
  | nil =>
    rw [Reader.next_ofTuples_nil]
    exact ⟨⟨hl, hr⟩, hpending, fun _ h => nomatch h⟩
  | cons t tuples =>
    obtain ⟨htakes, ht⟩ := htuples t List.mem_cons_self
    rw [Reader.next_ofTuples tuples htakes]
    have hmatches := meets_matchesOf hjoins hfit ht
    simp only
    split
    · rename_i he
      rw [he] at hmatches
      exact ⟨fun _ => hmatches, Contract.relax hs⟩
    · rename_i found he
      rw [he] at hmatches
      refine ⟨⟨hl, hr⟩, hpending, ?_⟩
      rintro a ⟨⟩
      refine ⟨hfit.table, ⟨tuples, rfl, fun u hu => htuples u (List.mem_cons_of_mem _ hu)⟩, ?_⟩
      rintro p ⟨⟩
      exact ⟨ht, hmatches⟩

theorem starts {s : State left.State right.State}
    (hstartLeft : c.Starts running db (left.start db s.left))
    (hstartRight : d.Starts running db (right.start db s.right))
    (hs : (join.contract c d goodOn).holds running db s) :
    (join.contract c d goodOn).Starts running db (start left right db s) := by
  obtain ⟨⟨-, hr⟩, hphase⟩ := hs
  unfold start
  split
  · rename_i hc
    rw [hc] at hstartLeft
    exact ⟨hstartLeft.1, ⟨hstartLeft.2, d.relax hr⟩, hphase⟩
  · rename_i hc
    rw [hc] at hstartLeft
    split
    · rename_i hcr
      rw [hcr] at hstartRight
      exact ⟨hstartRight.1, ⟨c.weaken hstartLeft, hstartRight.2⟩, hphase⟩
    · rename_i hcr
      rw [hcr] at hstartRight
      exact ⟨⟨hstartLeft, hstartRight⟩, trivial⟩

theorem steps (hleft : left.Pulled c (goodOn .left)) (hright : right.Pulled d (goodOn .right))
    (hjoins : join.Joins w goodOn good) (hdb : w.changes db db) {s : State left.State right.State}
    (hs : (join.contract c d goodOn).holds running db s) :
    (join.contract c d goodOn).Steps good running db (join.step left right db s n) := by
  obtain ⟨⟨hl, hr⟩, hphase⟩ := id hs
  replace hphase : s.phase.Fit join goodOn := hphase
  unfold step
  split
  · exact steps_spread hleft hright hjoins hdb hs
  · exact hs
  · rename_i l r pending hp
    rw [hp] at hphase
    obtain ⟨hpartLeft, hpartRight⟩ := hphase.1 (l, r) List.mem_cons_self
    have hpending := fun p hp => hphase.1 p (List.mem_cons_of_mem _ hp)
    have hload := meets_load hjoins hpartLeft hpartRight
    split
    · rename_i he
      rw [he] at hload
      exact ⟨fun _ => hload, ⟨c.relax hl, d.relax hr⟩, hpending, fun _ h => nomatch h⟩
    · rename_i he
      rw [he] at hload
      exact ⟨⟨hl, hr⟩, hpending, hload⟩
  · rename_i pending active hp
    split
    · rename_i t found rest hprobe
      rw [hp] at hphase
      have hfit := hphase.2 active rfl
      obtain ⟨ht, hfound⟩ := hfit.probe _ hprobe
      have hpair := meets_pair hjoins ht (hfound found List.mem_cons_self)
      have hrest : (Phase.joining pending (some { active with probe := some (t, rest) })).Fit
          join goodOn := by
        refine ⟨hphase.1, ?_⟩
        rintro a ⟨⟩
        refine ⟨hfit.table, hfit.reader, ?_⟩
        rintro p ⟨⟩
        exact ⟨ht, fun u hu => hfound u (List.mem_cons_of_mem _ hu)⟩
      simp only
      split
      · rename_i he
        rw [he] at hpair
        exact ⟨fun _ => hpair, ⟨c.relax hl, d.relax hr⟩, hrest⟩
      · rename_i he
        rw [he] at hpair
        exact ⟨hpair, ⟨hl, hr⟩, hrest⟩
    · exact steps_readProbe hjoins hp hs

theorem keeps (hleft : left.Keeps c (goodOn .left)) (hright : right.Keeps d (goodOn .right))
    (hjoins : join.Joins w goodOn good) :
    (join.machine left right).Keeps (join.contract c d goodOn) good where
  initial hdb := ⟨⟨hleft.initial hdb, hright.initial hdb⟩, trivial⟩
  start hdb hs := starts (hleft.start hdb hs.1.1) (hright.start hdb hs.1.2) hs
  step hdb hs _ := steps hleft.pulled hright.pulled hjoins hdb hs
  close {_ _ s} hs := ⟨⟨hleft.close hs.1.1, hright.close hs.1.2⟩, s.phase.fit_close⟩

end HashJoin

end QueryEngine
