import QueryEngine.Operator.BlockJoin
import QueryEngine.Proofs.Operator.Leaf
import QueryEngine.Proofs.Operator.Trial
import QueryEngine.Proofs.Pairs

/-!
# What a block join yields

The blocks are those of a greedy split of the left tuples. Each is tested against all rows, and a
pair is tested in one block only, so the budget decides about the order of pairs and nothing else.

* `BlockJoin.split`: the blocks; `BlockJoin.flatten_split` says that nothing is lost or repeated.
* `BlockJoin.tests`: the pairs of one block as they are tested.
* `BlockJoin.follows_filling`: a join tests the pairs of the blocks that are to come, from any point
  at which left tuples go into a block.
-/

namespace QueryEngine.BlockJoin

variable {join : BlockJoin} {left : Operator} {db : Database} {budget : Nat}

/-! ## Blocks -/

/-- The number of bytes of some tuples. -/
def bytes : List Tuple → Nat
  | [] => 0
  | t :: tuples => t.length + bytes tuples

theorem bytes_append_singleton (tuples : List Tuple) (t : Tuple) :
    bytes (tuples ++ [t]) = bytes tuples + t.length := by
  induction tuples with
  | nil => simp [bytes]
  | cons u tuples ih => rw [List.cons_append, bytes, ih, bytes, Nat.add_assoc]

/-- The blocks of some tuples, of which the first goes on from a block begun before. A block takes
in a tuple if it is empty, or if the tuple fits. -/
def split (budget : Nat) (block : List Tuple) : List Tuple → List (List Tuple)
  | [] => if block.isEmpty then [] else [block]
  | t :: tuples =>
    if !block.isEmpty && budget < bytes block + t.length then
      block :: split budget [t] tuples
    else split budget (block ++ [t]) tuples

theorem flatten_split (budget : Nat) (block tuples : List Tuple) :
    (split budget block tuples).flatten = block ++ tuples := by
  induction tuples generalizing block with
  | nil => cases block <;> rfl
  | cons t tuples ih =>
    rw [split]
    split
    · rw [List.flatten_cons, ih]
      rfl
    · rw [ih, List.append_assoc]
      rfl

/-- The pairs of a block, as they are tested. -/
def tests (rights block : List Tuple) : List (Tuple × Tuple) :=
  rights.flatMap fun r => block.map (·, r)

/-- All pairs, as they are tested. -/
def allTests (budget : Nat) (lefts rights : List Tuple) : List (Tuple × Tuple) :=
  (split budget [] lefts).flatMap (tests rights)

/-- Every pair is tested once, whatever the budget. -/
theorem allTests_perm (budget : Nat) (lefts rights : List Tuple) :
    (allTests budget lefts rights).Perm (lefts ×ˢ rights) := by
  have hblock : ∀ block : List Tuple,
      (tests rights block).Perm (pairs (fun _ _ => true) block rights) := by
    intro block
    have h := pairs_perm_swap (fun _ _ => true) block rights
    simp only [List.filter_true] at h
    exact h.symm
  have hall := List.Perm.flatMap_left (split budget [] lefts) fun block _ => hblock block
  rwa [flatMap_pairs, flatten_split, List.nil_append, pairs_true] at hall

/-- The tuples of the pairs that match, block by block. -/
def joined (p : JoinPredicate) (budget : Nat) (lefts rights : List Tuple) : List Tuple :=
  (split budget [] lefts).flatMap fun block =>
    rights.flatMap fun r => (block.filter (p.joins · r)).map (· ++ r)

theorem joined_eq (p : JoinPredicate) (budget : Nat) (lefts rights : List Tuple) :
    joined p budget lefts rights =
      ((allTests budget lefts rights).filter fun x => p.joins x.1 x.2).map
        fun x => x.1 ++ x.2 := by
  simp only [allTests, tests, List.filter_flatMap, List.filter_map, List.map_flatMap, List.map_map]
  rfl

theorem joined_perm (p : JoinPredicate) (budget : Nat) (lefts rights : List Tuple) :
    (joined p budget lefts rights).Perm
      ((pairs p.joins lefts rights).map fun x => x.1 ++ x.2) := by
  rw [joined_eq, ← filter_product]
  exact ((allTests_perm budget lefts rights).filter _).map _

/-! ## The run -/

/-- The pair that is tested next. -/
def tried? {σ : Type} (s : State σ) : Option (Tuple × Tuple) :=
  match s.phase with
  | .joining _ (some (r, l :: _)) => some (l, r)
  | _ => none

/-- What comes of pairs that are tested. -/
abbrev trial (join : BlockJoin) : List (Tuple × Tuple) → Trial (Tuple × Tuple) :=
  Trial.of (Trial.test join.predicate join.maxTupleSize)

/-- The state in which left tuples go into a block that already has some. -/
def State.filling {σ : Type} (l : σ) (right : TableScan.State) (block : List Tuple)
    (exhausted : Bool) : State σ :=
  ⟨l, right, .ofList block, bytes block, .filling, exhausted, false⟩

/-- The state in which a block is joined. -/
def State.joining {σ : Type} (l : σ) (right : TableScan.State) (block : List Tuple)
    (pending : Option Tuple) (current : Option (Tuple × List Tuple)) (exhausted : Bool) : State σ :=
  ⟨l, right, .ofList block, bytes block, .joining pending current, exhausted, false⟩

variable {l : left.State} {right : TableScan.State} {block : List Tuple} {pending : Option Tuple}
  {exhausted : Bool} {rest : List (Tuple × Tuple)} {rows unread : List Row}

theorem test_eq (join : BlockJoin) (a b : Tuple) (s : State left.State) (n : Nat) :
    join.test a b s n = .trying (Trial.test join.predicate join.maxTupleSize (a, b)) s n := by
  rw [test, Trial.test, Trial.concat]
  cases join.predicate.evaluate a b with
  | error e => rfl
  | ok matched =>
    cases matched with
    | false => rfl
    | true => cases a.joinWithin join.maxTupleSize b <;> rfl

/-- The tests of a right tuple come first. -/
theorem follows_untested {r : Tuple} (untested : List Tuple)
    (h : (join.machine left).Follows db tried? (.joining l right block pending none exhausted)
      (join.trial rest)) :
    (join.machine left).Follows db tried?
      (.joining l right block pending (some (r, untested)) exhausted)
      (join.trial (untested.map (·, r) ++ rest)) := by
  induction untested with
  | nil => exact .of_again rfl fun n => ⟨_, n, rfl, h⟩
  | cons a untested ih => exact .of_try rfl fun n => ⟨_, n, test_eq join a r _ n, ih⟩

/-- Then come those of the right tuples still to be fetched. -/
theorem follows_rows (calls rewinds : Nat)
    (h : ∀ calls, (join.machine left).Follows db tried?
      (.filling l (TableScan.reading rows [] calls rewinds true) pending.toList exhausted)
      (join.trial rest)) :
    (join.machine left).Follows db tried?
      (.joining l (TableScan.reading rows unread calls rewinds false) block pending none exhausted)
      (join.trial (tests (unread.map (·.2)) block ++ rest)) := by
  induction unread generalizing calls with
  | nil =>
    refine .of_again rfl fun n => ⟨_, n, ?_, h (calls + 1)⟩
    cases pending <;> rfl
  | cons row unread ih =>
    rw [List.map_cons, tests, List.flatMap_cons, List.append_assoc, ← tests]
    refine .of_again rfl fun n => ⟨_, n, ?_, follows_untested block (ih (calls + 1))⟩
    simp only [machine, step, State.joining, TableScan.next_reading_cons, Pile.toList_ofList]
    rfl

theorem follows_last (calls rewinds : Nat) (done : Bool) :
    (join.machine left).Follows db tried?
      (.filling l (TableScan.reading rows unread calls rewinds done) block true)
      (join.trial ((split join.budget block []).flatMap (tests (rows.map (·.2))))) := by
  have hnone : ∀ calls rewinds unread done, (join.machine left).Follows db tried?
      (.filling l (TableScan.reading rows unread calls rewinds done) [] true) (join.trial []) :=
    fun _ _ _ _ => .of_ending rfl fun n => ⟨_, n, rfl⟩
  cases block with
  | nil => exact hnone calls rewinds unread done
  | cons b block =>
    rw [split, List.isEmpty_cons, if_neg Bool.false_ne_true, List.flatMap_cons, List.flatMap_nil]
    have hjoining : (join.machine left).Follows db tried?
        (.joining l (TableScan.reading rows rows calls (rewinds + 1) false) (b :: block) none none
          true)
        (join.trial (tests (rows.map (·.2)) (b :: block) ++ [])) :=
      follows_rows calls _ fun calls => hnone calls _ [] true
    refine .of_again rfl fun n => ⟨_, n, ?_, hjoining⟩
    simp only [machine, step, State.filling, fill, Pile.isEmpty_ofList, List.isEmpty_cons, if_true,
      Bool.false_eq_true, if_false]
    rfl

/-- **A block join tests the pairs of the blocks that are to come**, from any point at which left
tuples go into a block. -/
theorem follows_filling {lefts : List Tuple} (hl : left.Yields db none l lefts)
    (calls rewinds : Nat) (done : Bool) :
    (join.machine left).Follows db tried?
      (.filling l (TableScan.reading rows unread calls rewinds done) block false)
      (join.trial ((split join.budget block lefts).flatMap (tests (rows.map (·.2))))) := by
  induction lefts generalizing l block unread calls rewinds done with
  | nil =>
    refine .of_again rfl fun n => ?_
    obtain ⟨l', n', hn⟩ := hl n
    have hlast : (join.machine left).Follows db tried?
        (.filling l' (TableScan.reading rows unread calls rewinds done) block true) _ :=
      follows_last calls rewinds done
    refine ⟨_, n', ?_, hlast⟩
    simp only [machine, step, State.filling, fill, hn, Operator.ending]
    rfl
  | cons t lefts ih =>
    rw [split]
    split
    · rename_i hfull
      rw [List.flatMap_cons]
      refine .of_again rfl fun n => ?_
      obtain ⟨l', n', hn, hrest⟩ := hl n
      have hjoining : (join.machine left).Follows db tried?
          (.joining l' (TableScan.reading rows rows calls (rewinds + 1) false) block (some t) none
            false)
          (join.trial (tests (rows.map (·.2)) block ++ _)) :=
        follows_rows calls _ fun calls => ih hrest calls _ true
      refine ⟨_, n', ?_, hjoining⟩
      simp only [machine, step, State.filling, fill, hn, Pile.isEmpty_ofList, hfull, if_true]
      rfl
    · rename_i hfits
      refine .of_again rfl fun n => ?_
      obtain ⟨l', n', hn, hrest⟩ := hl n
      have hfilling : (join.machine left).Follows db tried?
          (.filling l' (TableScan.reading rows unread calls rewinds done) (block ++ [t]) false) _ :=
        ih hrest calls rewinds done
      refine ⟨_, n', ?_, hfilling⟩
      simp only [machine, step, State.filling, fill, hn, Pile.isEmpty_ofList, hfits, State.take,
        Pile.push_ofList, bytes_append_singleton, Bool.false_eq_true, if_false]

/-! ## The join -/

variable {right : TableScan} {condition : Condition} {pages : Nat} {config : Config}

theorem exists_of_bind {left : Schema}
    (h : bind left right condition pages config = .ok join) :
    condition.bindJoin left right.schema = .ok join.predicate ∧ join.right = right ∧
      join.budget = min (pages * config.pageSize) largestBudget ∧
      join.maxTupleSize = config.maxTupleSize := by
  simp only [bind, bind_eq_ok_iff, throw_eq_error, error_bind, refuse_eq_ok_iff, pure_eq_ok,
    Except.ok.injEq] at h
  obtain ⟨_, -, -, p, hp, rfl⟩ := h
  exact ⟨hp, rfl, rfl, rfl⟩

theorem exists_start {s : (join.operator left).State} {l : left.State} {rows : List Row}
    (hl : left.start db s.body.left = (.ok (), l))
    (hr : join.right.Reads db s.body.right rows) :
    ∃ calls rewinds, (join.operator left).start db s = (.ok (),
      ⟨.filling l (TableScan.reading rows rows calls rewinds false) [] false, true, false⟩) := by
  obtain ⟨calls, rewinds, hr⟩ := hr
  have hstart : join.start left db s.body =
      (.ok (), .filling l (TableScan.reading rows rows calls rewinds false) [] false) := by
    simp only [start, hl, hr]
    rfl
  exact ⟨calls, rewinds, Machine.start_of_ok hstart⟩

/-- **A block join yields the pairs that match, block by block.** It tests every pair of tuples
once, and another budget only puts the pairs in another order. -/
theorem yields_joined {s : (join.operator left).State} {l : left.State} {lefts : List Tuple}
    {rows : List Row} (hbind : bind left.schema right condition pages config = .ok join)
    (hlstart : left.start db s.body.left = (.ok (), l)) (hl : left.Yields db none l lefts)
    (hr : right.Reads db s.body.right rows)
    (hcomparable : ∀ a ∈ lefts, ∀ b ∈ rows.map (·.2), join.predicate.Comparable a b)
    (hfits : ∀ a ∈ lefts, ∀ b ∈ rows.map (·.2), join.predicate.joins a b = true →
      (a ++ b).length ≤ config.maxTupleSize) :
    ∃ s', (join.operator left).start db s = (.ok (), s') ∧
      (join.operator left).Yields db none s' (joined join.predicate
        (min (pages * config.pageSize) largestBudget) lefts (rows.map (·.2))) ∧
      (∀ n, (((join.machine left).visited db s'.body n).filterMap tried?).Perm
        (lefts ×ˢ rows.map (·.2))) ∧
      ∀ budget, (joined join.predicate budget lefts (rows.map (·.2))).Perm
        ((pairs join.predicate.joins lefts (rows.map (·.2))).map fun x => x.1 ++ x.2) := by
  obtain ⟨hpred, rfl, hbudget, hmax⟩ := exists_of_bind hbind
  obtain ⟨calls, rewinds, hstart⟩ := exists_start hlstart hr
  have hmem : ∀ x ∈ allTests join.budget lefts (rows.map (·.2)),
      x.1 ∈ lefts ∧ x.2 ∈ rows.map (·.2) := fun x hx =>
    List.pair_mem_product.1 ((allTests_perm join.budget lefts (rows.map (·.2))).mem_iff.1 hx)
  have htrial : join.trial (allTests join.budget lefts (rows.map (·.2))) = _ :=
    Trial.of_test (fun x hx => hcomparable _ (hmem x hx).1 _ (hmem x hx).2)
      fun x hx => hmax ▸ hfits _ (hmem x hx).1 _ (hmem x hx).2
  have hfollows : (join.machine left).Follows db tried?
      (.filling l (TableScan.reading rows rows calls rewinds false) [] false)
      (join.trial (allTests join.budget lefts (rows.map (·.2)))) :=
    follows_filling hl calls rewinds false
  rw [htrial, ← joined_eq, hbudget] at hfollows
  refine ⟨_, hstart, hfollows.yields "BlockNestedLoopJoin" join.schema, fun n => ?_,
    fun budget => joined_perm _ budget _ _⟩
  exact (List.Perm.of_eq (hfollows.filterMap_visited n)).trans (allTests_perm _ _ _)

/-- A table of two integers. -/
def integersStore : Store where
  tables := [("r", ⟨⟨[.integer "b"], 4096⟩, [(1, ⟨[2, 0, 0, 0]⟩), (2, ⟨[3, 0, 0, 0]⟩)], []⟩)]

/-- A join of integers with larger ones, in blocks of one tuple. -/
def integers : BlockJoin where
  right := ⟨"r", [.integer "r.b"]⟩
  condition := ⟨"a", .lt, .column "r.b"⟩
  predicate := ⟨⟨[.integer "a"], 4096⟩, ⟨[.integer "r.b"], 4096⟩, 0, 0, .lt, .integer⟩
  budget := 4
  maxTupleSize := 4096
  schema := [.integer "a", .integer "r.b"]

theorem yields_joined_integers :
    ∃ s', (integers.operator
        (Materialized.operator ⟨[.integer "a"], [⟨[2, 0, 0, 0]⟩, ⟨[1, 0, 0, 0]⟩]⟩)).Yields
      { store := integersStore } none s'
      [⟨[2, 0, 0, 0, 3, 0, 0, 0]⟩, ⟨[1, 0, 0, 0, 2, 0, 0, 0]⟩, ⟨[1, 0, 0, 0, 3, 0, 0, 0]⟩] := by
  let left : Materialized := ⟨[.integer "a"], [⟨[2, 0, 0, 0]⟩, ⟨[1, 0, 0, 0]⟩]⟩
  have hbind : bind left.schema integers.right ⟨"a", .lt, .column "r.b"⟩ 1 { pageSize := 4 } =
      .ok integers := rfl
  have hcomparable : ∀ a ∈ left.tuples, ∀ b ∈ [⟨[2, 0, 0, 0]⟩, ⟨[3, 0, 0, 0]⟩],
      integers.predicate.Comparable a b := by
    simp only [left, List.forall_mem_cons, List.not_mem_nil, false_implies, implies_true, and_true]
    refine ⟨⟨?_, ?_⟩, ?_, ?_⟩ <;> exact fun _ => ⟨_, _, _, rfl, rfl, rfl⟩
  obtain ⟨s', -, h, -⟩ := yields_joined (s := (integers.operator left.operator).initial) hbind
    rfl (left.yields { store := integersStore } left.tuples)
    (TableScan.reads_of_closed rfl rfl rfl) hcomparable (by decide)
  exact ⟨s', h⟩

end QueryEngine.BlockJoin
