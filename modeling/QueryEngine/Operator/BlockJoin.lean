import QueryEngine.Config
import QueryEngine.Operator.Machine
import QueryEngine.Operator.TableScan
import QueryEngine.Pile
import QueryEngine.Predicate

/-!
# Joins by blocks

A block join reads its left child in blocks of bounded size. For every block it scans the right
table once from its first row and tests each right tuple against the tuples of the block in their
order. A block takes in left tuples as long as they fit; its first tuple is taken whatever its
size. The tuple that did not fit waits for the next block.

* `BlockJoin.bind`: a block join of two schemas on a condition.
* `BlockJoin.step`: takes in one left tuple, fetches one right tuple, or tests one pair.
* `BlockJoin.State.rank`: what every such step uses up.
-/

namespace QueryEngine

/-- A block join whose condition is bound to positions. -/
structure BlockJoin where
  right : TableScan
  condition : Condition
  predicate : JoinPredicate
  /-- The most bytes of a block of more than one tuple. -/
  budget : Nat
  maxTupleSize : Nat
  schema : Schema
  deriving DecidableEq, Repr

namespace BlockJoin

/-- The largest size there is. -/
def largestBudget : Nat := 2 ^ 64 - 1

/-- A join of tuples of the left schema with the rows of a table, in blocks of `pages` pages. -/
def bind (left : Schema) (right : TableScan) (condition : Condition) (pages : Nat)
    (config : Config) : Except Error BlockJoin := do
  config.validate
  if pages = 0 then throw (.invalidArgument .zeroPages)
  let predicate ← condition.bindJoin left right.schema
  return {
    right, condition, predicate, budget := min (pages * config.pageSize) largestBudget
    maxTupleSize := config.maxTupleSize, schema := left ++ right.schema }

/-- What the join is at. -/
inductive Phase where
  /-- Left tuples go into the block. -/
  | filling
  /-- The block is complete. A left tuple that did not fit is `pending`, and the current right
  tuple has still to be tested against `untested` tuples of the block. -/
  | joining (pending : Option Tuple) (current : Option (Tuple × List Tuple))

/-- The left child, the scan of the right table, and the block between them. -/
structure State (σ : Type) where
  left : σ
  right : TableScan.State
  block : Pile Tuple
  /-- The bytes of the block. -/
  blockBytes : Nat
  phase : Phase
  /-- The left child had no more tuples. -/
  exhausted : Bool
  done : Bool

variable {σ : Type}

/-- Before the first block. -/
def State.fresh (left : σ) (right : TableScan.State) : State σ :=
  ⟨left, right, .empty, 0, .filling, false, false⟩

/-- The left tuple that waits for the next block. -/
def State.pending (s : State σ) : Option Tuple :=
  match s.phase with
  | .filling => none
  | .joining pending _ => pending

def start (join : BlockJoin) (left : Operator) (db : Database) (s : State left.State) :
    Except Error Unit × State left.State :=
  match left.start db s.left with
  | (.error e, l) => (.error e, { s with left := l })
  | (.ok _, l) =>
    match join.right.start db s.right with
    | (.error e, r) => (.error e, { s with left := l, right := r })
    | (.ok _, r) => (.ok (), .fresh l r)

/-- Puts a left tuple into the block. -/
def State.take (s : State σ) (t : Tuple) : State σ :=
  { s with block := s.block.push t, blockBytes := s.blockBytes + t.length }

/-- Goes on from a complete block to the right table, from its first row. -/
def State.complete (s : State σ) (pending : Option Tuple) (reads : Nat) : Step (State σ) :=
  match TableScan.rewind s.right with
  | (.error e, r) => .fail e { s with right := r, phase := .joining pending none } reads
  | (.ok _, r) => .again { s with right := r, phase := .joining pending none } reads

/-- Starts a new block with the tuple that waited for it. -/
def State.nextBlock (s : State σ) (pending : Option Tuple) : State σ :=
  { s with
    block := .ofList pending.toList, blockBytes := (pending.map Tuple.length).getD 0
    phase := .filling }

/-- Takes in one left tuple. -/
def fill (join : BlockJoin) (left : Operator) (db : Database) (s : State left.State)
    (reads : Nat) : Step (State left.State) :=
  if s.exhausted then
    if s.block.isEmpty then .finish { s with done := true } reads else s.complete none reads
  else
    match left.next db s.left reads with
    | ⟨.error e, l, n⟩ => .fail e { s with left := l } n
    | ⟨.ok none, l, n⟩ => .again { s with left := l, exhausted := true } n
    | ⟨.ok (some t), l, n⟩ =>
      let s := { s with left := l }
      if !s.block.isEmpty && join.budget < s.blockBytes + t.length then s.complete (some t) n
      else .again (s.take t) n

/-- Tests a pair of tuples. -/
def test (join : BlockJoin) (l r : Tuple) (s : State σ) (reads : Nat) : Step (State σ) :=
  match join.predicate.evaluate l r with
  | .error e => .fail e s reads
  | .ok false => .again s reads
  | .ok true =>
    match l.joinWithin join.maxTupleSize r with
    | .error e => .fail e s reads
    | .ok t => .emit t s reads

/-- Takes in one left tuple, fetches one right tuple, or tests one pair. -/
def step (join : BlockJoin) (left : Operator) (db : Database) (s : State left.State)
    (reads : Nat) : Step (State left.State) :=
  if s.done then .finish s reads
  else
    match s.phase with
    | .filling => join.fill left db s reads
    | .joining pending (some (r, l :: untested)) =>
      join.test l r { s with phase := .joining pending (some (r, untested)) } reads
    | .joining pending (some (_, [])) => .again { s with phase := .joining pending none } reads
    | .joining pending none =>
      match TableScan.next s.right with
      | (.error e, right) => .fail e { s with right } reads
      | (.ok none, right) => .again ({ s with right }.nextBlock pending) reads
      | (.ok (some r), right) =>
        .again { s with right, phase := .joining pending (some (r, s.block.toList)) } reads

def close (left : Operator) (s : State left.State) : State left.State :=
  { s with
    left := left.close s.left, right := TableScan.close s.right, block := .empty, blockBytes := 0
    phase := .filling }

/-! ## Progress -/

/-- The blocks still to come before the next left tuple is read, with the current one counted
before and after it is complete. -/
def State.blocksLeft (s : State σ) : Nat :=
  match s.phase with
  | .filling => if s.block.isEmpty then 0 else 2
  | .joining none _ => 1
  | .joining (some _) _ => 3

/-- The tests still to come for the current right tuple, and one step to let it go. -/
def State.testsLeft (s : State σ) : Nat :=
  match s.phase with
  | .joining _ (some (_, untested)) => untested.length + 1
  | _ => 0

/-- What is used up, first things first: the end of the left child, its tuples, blocks, right
tuples, and tests. -/
def State.rank (s : State σ) : Nat × σ × Nat × Nat × Nat :=
  (if s.exhausted then 0 else 1, s.left, s.blocksLeft, s.right.rank, s.testsLeft)

/-- The order of ranks over a left child. -/
abbrev rankOrder (left : Operator) : WellFoundedRelation (Nat × left.State × Nat × Nat × Nat) :=
  Prod.lex Nat.lt_wfRel (Prod.lex ⟨Pull.Later left.next, left.finite⟩
    (Prod.lex Nat.lt_wfRel (Prod.lex Nat.lt_wfRel Nat.lt_wfRel)))

theorem eq_of_complete {s s' : State σ} {pending : Option Tuple} {n : Nat}
    (h : (s.complete pending n).continuation = some s') :
    s'.left = s.left ∧ s'.exhausted = s.exhausted ∧ s'.phase = .joining pending none := by
  unfold State.complete at h
  split at h <;> simp only [Step.continuation, reduceCtorEq, Option.some.injEq] at h
  subst h
  exact ⟨rfl, rfl, rfl⟩

theorem rank_of_blocksLeft {left : Operator} {s s' : State left.State} (hl : s'.left = s.left)
    (he : s'.exhausted = s.exhausted) (h : s'.blocksLeft < s.blocksLeft) :
    (rankOrder left).rel s'.rank s.rank := by
  unfold State.rank
  rw [hl, he]
  exact .right _ (.right _ (.left _ _ h))

theorem rank_of_right {left : Operator} {s s' : State left.State} (hl : s'.left = s.left)
    (he : s'.exhausted = s.exhausted) (hb : s'.blocksLeft = s.blocksLeft)
    (h : s'.right.rank < s.right.rank) : (rankOrder left).rel s'.rank s.rank := by
  unfold State.rank
  rw [hl, he, hb]
  exact .right _ (.right _ (.right _ (.left _ _ h)))

theorem rank_of_testsLeft {left : Operator} {s s' : State left.State} (hl : s'.left = s.left)
    (he : s'.exhausted = s.exhausted) (hb : s'.blocksLeft = s.blocksLeft)
    (hr : s'.right = s.right) (h : s'.testsLeft < s.testsLeft) :
    (rankOrder left).rel s'.rank s.rank := by
  unfold State.rank
  rw [hl, he, hb, hr]
  exact .right _ (.right _ (.right _ (.right _ h)))

theorem rank_of_left {left : Operator} {s s' : State left.State}
    (hl : Pull.Later left.next s'.left s.left) (he : s'.exhausted = s.exhausted) :
    (rankOrder left).rel s'.rank s.rank := by
  unfold State.rank
  rw [he]
  exact .right _ (.left _ _ hl)

theorem rank_fill {join : BlockJoin} {left : Operator} {db : Database} {s s' : State left.State}
    {n : Nat} (hs : s.phase = .filling)
    (h : (join.fill left db s n).continuation = some s') :
    (rankOrder left).rel s'.rank s.rank := by
  unfold fill at h
  split at h
  · split at h
    · simp [Step.continuation] at h
    · rename_i hb
      obtain ⟨hl, he, hp⟩ := eq_of_complete h
      exact rank_of_blocksLeft hl he (by simp [State.blocksLeft, hs, hp, hb])
  · rename_i hx
    split at h
    · simp [Step.continuation] at h
    · simp only [Step.continuation, Option.some.injEq] at h
      subst h
      simp only [State.rank, hx]
      exact .left _ _ Nat.zero_lt_one
    · rename_i t l k hn
      have later : Pull.Later left.next l s.left := ⟨_, _, _, _, hn⟩
      simp only at h
      split at h
      · obtain ⟨hl, he, -⟩ := eq_of_complete h
        exact rank_of_left (hl ▸ later) he
      · simp only [Step.continuation, Option.some.injEq] at h
        subst h
        exact rank_of_left later rfl

/-- A step that goes on, or yields, uses something up. -/
theorem rank_step {join : BlockJoin} {left : Operator} {db : Database} {s s' : State left.State}
    {n : Nat} (h : (join.step left db s n).continuation = some s') :
    (rankOrder left).rel s'.rank s.rank := by
  unfold step at h
  split at h
  · simp [Step.continuation] at h
  split at h
  · exact rank_fill ‹_› h
  · rename_i pending r l untested hp
    have hs : s' = { s with phase := .joining pending (some (r, untested)) } := by
      unfold test at h
      repeat' split at h
      all_goals simp_all [Step.continuation]
    subst hs
    refine rank_of_testsLeft rfl rfl ?_ rfl (by simp [State.testsLeft, hp])
    cases pending <;> simp [State.blocksLeft, hp]
  · rename_i pending r hp
    simp only [Step.continuation, Option.some.injEq] at h
    subst h
    refine rank_of_testsLeft rfl rfl ?_ rfl (by simp [State.testsLeft, hp])
    cases pending <;> simp [State.blocksLeft, hp]
  · rename_i pending hp
    split at h
    · simp [Step.continuation] at h
    · simp only [Step.continuation, Option.some.injEq] at h
      subst h
      refine rank_of_blocksLeft rfl rfl ?_
      cases pending <;> simp [State.nextBlock, State.blocksLeft, hp]
    · rename_i r right hr
      simp only [Step.continuation, Option.some.injEq] at h
      subst h
      refine rank_of_right rfl rfl ?_ (TableScan.rank_next_lt hr)
      cases pending <;> simp [State.blocksLeft, hp]

theorem progress (join : BlockJoin) (left : Operator) :
    WellFounded (Step.Later (join.step left)) :=
  Machine.ofRank (rankOrder left).wf State.rank rank_step

def machine (join : BlockJoin) (left : Operator) : Machine where
  State := State left.State
  initial := .fresh left.initial TableScan.initial
  start := join.start left
  step := join.step left
  close := close left
  progress := join.progress left

/-- The join with a left child. -/
def operator (join : BlockJoin) (left : Operator) : Operator :=
  (join.machine left).operator "BlockNestedLoopJoin" join.schema

end BlockJoin

end QueryEngine
