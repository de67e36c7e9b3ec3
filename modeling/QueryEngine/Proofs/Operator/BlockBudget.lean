import QueryEngine.Proofs.Operator.BlockJoin
import QueryEngine.Proofs.Operator.Drain

/-!
# What a block join costs

The budget of a block join bounds the bytes that it keeps, and with them how often it reads the
right table, which is once for every block.

* `BlockJoin.Greedy`: blocks of which none is too large and none could have been larger. There is
  one way to have such blocks, the one of `BlockJoin.split` (`BlockJoin.greedy_iff`).
* `BlockJoin.State.Bounded`: what a step keeps of the block and of the count of its bytes.
* `BlockJoin.ends_filling`: the calls of the right table that are to come, from any point at which
  left tuples go into a block.
-/

namespace QueryEngine

namespace BlockJoin

/-! ## Greedy blocks -/

/-- A block is no larger than the budget, or a single tuple. -/
def Allowed (budget : Nat) (block : List Tuple) : Prop := bytes block ≤ budget ∨ block.length = 1

/-- Blocks of some tuples. None is empty, only a single tuple may be larger than the budget, and the
tuple that comes after a block would not have fitted into it. -/
structure Greedy (budget : Nat) (tuples : List Tuple) (blocks : List (List Tuple)) : Prop where
  flatten_eq : blocks.flatten = tuples
  fits : ∀ block ∈ blocks, block ≠ [] ∧ Allowed budget block
  full : blocks.IsChain fun block next => ∀ t ∈ next.head?, budget < bytes block + t.length

variable {budget : Nat} {block tuples : List Tuple} {blocks : List (List Tuple)}

theorem bytes_le_append (block more : List Tuple) : bytes block ≤ bytes (block ++ more) := by
  induction block with
  | nil => exact Nat.zero_le _
  | cons t block ih => exact Nat.add_le_add_left ih _

/-- A block that takes in a tuple was empty, or the tuple fitted. -/
theorem allowed_append_singleton {t : Tuple}
    (h : ¬(!block.isEmpty && decide (budget < bytes block + t.length)) = true) :
    Allowed budget (block ++ [t]) := by
  by_cases hempty : block = []
  · subst hempty
    exact .inr rfl
  · rw [Bool.and_eq_true, Bool.not_eq_true', List.isEmpty_eq_false_iff, decide_eq_true_iff] at h
    refine .inl ?_
    rw [bytes_append_singleton]
    exact Nat.not_lt.1 fun hlt => h ⟨hempty, hlt⟩

/-- The first block goes on from the one begun before. -/
theorem exists_split (budget : Nat) (hblock : block ≠ []) (tuples : List Tuple) :
    ∃ more rest, split budget block tuples = (block ++ more) :: rest := by
  induction tuples generalizing block with
  | nil => exact ⟨[], [], by simp [split, hblock]⟩
  | cons t tuples ih =>
    rw [split]
    split
    · exact ⟨[], _, by rw [List.append_nil]⟩
    · obtain ⟨more, rest, h⟩ := @ih (block ++ [t]) (by simp)
      exact ⟨t :: more, rest, by rw [h, List.append_assoc]; rfl⟩

theorem fits_split (hblock : block = [] ∨ Allowed budget block) (tuples : List Tuple) :
    ∀ b ∈ split budget block tuples, b ≠ [] ∧ Allowed budget b := by
  induction tuples generalizing block with
  | nil =>
    cases block with
    | nil => simp [split]
    | cons t block => simpa [split] using hblock
  | cons t tuples ih =>
    rw [split]
    split
    · rename_i hfull
      rw [Bool.and_eq_true, Bool.not_eq_true', List.isEmpty_eq_false_iff] at hfull
      exact List.forall_mem_cons.2
        ⟨⟨hfull.1, hblock.resolve_left hfull.1⟩, ih (.inr (.inr rfl))⟩
    · rename_i hfits
      exact ih (.inr (allowed_append_singleton hfits))

theorem full_split (budget : Nat) (block tuples : List Tuple) :
    (split budget block tuples).IsChain
      fun b next => ∀ t ∈ next.head?, budget < bytes b + t.length := by
  induction tuples generalizing block with
  | nil =>
    rw [split]
    split
    · exact .nil
    · exact .singleton block
  | cons t tuples ih =>
    rw [split]
    split
    · rename_i hfull
      rw [Bool.and_eq_true, decide_eq_true_iff] at hfull
      obtain ⟨more, rest, hsplit⟩ := exists_split budget (List.cons_ne_nil t []) tuples
      have hrest := ih [t]
      rw [hsplit] at hrest ⊢
      refine .cons_cons (fun u hu => ?_) hrest
      obtain rfl := Option.some.inj hu
      exact hfull.2
    · exact ih (block ++ [t])

/-- What fits is taken into the block. -/
theorem split_append {more : List Tuple} (h : Allowed budget (block ++ more))
    (tuples : List Tuple) :
    split budget block (more ++ tuples) = split budget (block ++ more) tuples := by
  induction more generalizing block with
  | nil => rw [List.append_nil, List.nil_append]
  | cons t more ih =>
    have hshift : block ++ t :: more = block ++ [t] ++ more := by simp
    have hfits : (!block.isEmpty && decide (budget < bytes block + t.length)) = false := by
      rcases h with hbytes | hlength
      · have hle := bytes_le_append (block ++ [t]) more
        rw [← hshift, bytes_append_singleton] at hle
        simp only [Bool.and_eq_false_iff, decide_eq_false_iff_not]
        exact .inr (by omega)
      · rw [List.length_append, List.length_cons] at hlength
        rw [List.eq_nil_of_length_eq_zero (l := block) (by omega)]
        rfl
    rw [hshift] at h ⊢
    rw [List.cons_append, split, hfits, if_neg Bool.false_ne_true, ih h]

/-- Blocks that are filled greedily are found again. -/
theorem split_flatten (hfits : ∀ b ∈ blocks, b ≠ [] ∧ Allowed budget b)
    (hfull : blocks.IsChain fun b next => ∀ t ∈ next.head?, budget < bytes b + t.length) :
    split budget [] blocks.flatten = blocks := by
  induction blocks with
  | nil => rfl
  | cons b blocks ih =>
    obtain ⟨⟨hne, hb⟩, hrest⟩ := List.forall_mem_cons.1 hfits
    have hempty : b.isEmpty = false := List.isEmpty_eq_false_iff.2 hne
    rw [List.flatten_cons, @split_append budget [] b hb, List.nil_append]
    cases blocks with
    | nil => rw [List.flatten_nil, split, hempty, if_neg Bool.false_ne_true]
    | cons next blocks =>
      obtain ⟨hnext, hchain⟩ := List.isChain_cons_cons.1 hfull
      obtain ⟨t, more, rfl⟩ := List.exists_cons_of_ne_nil (hrest next List.mem_cons_self).1
      have hsplit := ih hrest hchain
      rw [List.flatten_cons, List.cons_append] at hsplit ⊢
      rw [split, List.isEmpty_nil, Bool.not_true, Bool.false_and, if_neg Bool.false_ne_true,
        List.nil_append] at hsplit
      rw [split, hempty, decide_eq_true (hnext t rfl), Bool.not_false, Bool.true_and, if_pos rfl,
        hsplit]

/-- There is one way to fill blocks greedily. -/
theorem greedy_iff : Greedy budget tuples blocks ↔ blocks = split budget [] tuples := by
  constructor
  · rintro ⟨rfl, hfits, hfull⟩
    exact (split_flatten hfits hfull).symm
  · rintro rfl
    exact ⟨flatten_split budget [] tuples, fits_split (.inl rfl) tuples,
      full_split budget [] tuples⟩

/-! ## The block of a state -/

variable {join : BlockJoin} {left : Operator} {db : Database}

/-- The bytes of the block are counted right, and are not too many. An empty block is no larger than
any budget. -/
def State.Bounded {σ : Type} (budget : Nat) (s : State σ) : Prop :=
  s.blockBytes = bytes s.block.toList ∧ (s.block.toList = [] ∨ Allowed budget s.block.toList)

theorem bounded_complete {σ : Type} {s : State σ} (h : s.Bounded budget) (pending : Option Tuple)
    (n : Nat) :
    (s.complete pending n).Leads (·.Bounded budget) fun pull => pull.state.Bounded budget := by
  unfold State.complete
  split <;> exact h

theorem bounded_fill {s : State left.State} (h : s.Bounded join.budget) (n : Nat) :
    (join.fill left db s n).Leads (·.Bounded join.budget)
      fun pull => pull.state.Bounded join.budget := by
  unfold fill
  split
  · split
    · exact h
    · exact bounded_complete h none n
  · split
    · exact h
    · exact h
    · rename_i t l k _
      simp only
      split
      · exact bounded_complete (s := { s with left := l }) h (some t) k
      · rename_i hfits
        rw [← Pile.isEmpty_toList, h.1] at hfits
        rw [Step.Leads, State.Bounded, State.take, Pile.toList_push, bytes_append_singleton, h.1]
        exact ⟨rfl, .inr (allowed_append_singleton hfits)⟩

theorem bounded_test {s : State left.State} (h : s.Bounded budget) (a b : Tuple) (n : Nat) :
    (join.test a b s n).Leads (·.Bounded budget) fun pull => pull.state.Bounded budget := by
  unfold test
  split
  · exact h
  · exact h
  · split <;> exact h

/-- A block begins with the tuple that waited for it. -/
theorem bounded_nextBlock {σ : Type} (s : State σ) (pending : Option Tuple) :
    (s.nextBlock pending).Bounded budget := by
  cases pending with
  | none => exact ⟨rfl, .inl rfl⟩
  | some t => exact ⟨rfl, .inr (.inr rfl)⟩

theorem preserves_bounded (join : BlockJoin) (left : Operator) :
    (join.machine left).Preserves (·.Bounded join.budget) where
  start db s h := by
    show (join.start left db s).2.Bounded join.budget
    unfold start
    split
    · exact h
    · split
      · exact h
      · exact ⟨rfl, .inl rfl⟩
  step db s n h := by
    show (join.step left db s n).Leads _ _
    unfold step
    split
    · exact h
    · split
      · exact bounded_fill h n
      · rename_i pending r l untested _
        have hnext : State.Bounded join.budget
            { s with phase := .joining pending (some (r, untested)) } := h
        exact bounded_test hnext l r n
      · exact h
      · split
        · exact h
        · exact bounded_nextBlock _ _
        · exact h
  close s _ := ⟨rfl, .inl rfl⟩

/-! ## The calls of the right table -/

/-- The block for which the right table is asked for its next row. -/
def asking? {σ : Type} (s : State σ) : Option (List Tuple) :=
  match s.phase with
  | .joining _ none => some s.block.toList
  | _ => none

/-- How often the scanner of the right table was asked for a row. -/
def State.calls {σ : Type} (s : State σ) : Nat := (s.right.scanner.map (·.calls)).getD 0

variable {l : left.State} {pending : Option Tuple} {exhausted : Bool} {rows unread : List Row}
  {log : List (List Tuple)} {Q : State left.State → Prop}

theorem asking?_joining {σ : Type} (l : σ) (right : TableScan.State) (block : List Tuple)
    (pending : Option Tuple) (exhausted : Bool) :
    asking? (.joining l right block pending none exhausted) = some block := by
  rw [asking?, State.joining, Pile.toList_ofList]

/-- A right tuple is tested against the block, and the right table is not asked meanwhile. -/
theorem ends_untested {right : TableScan.State} {r : Tuple} {untested : List Tuple}
    (hmade : ∀ x ∈ untested.map (·, r), ∃ made,
      Trial.test join.predicate join.maxTupleSize x = .ok made)
    (h : (join.machine left).Ends db asking? (.joining l right block pending none exhausted) log
      Q) :
    (join.machine left).Ends db asking?
      (.joining l right block pending (some (r, untested)) exhausted) log Q := by
  induction untested with
  | nil => exact .of_again_unseen rfl fun n => ⟨_, n, rfl, h⟩
  | cons a untested ih =>
    obtain ⟨ha, hrest⟩ := List.forall_mem_cons.1 hmade
    exact .of_try rfl ha fun n => ⟨_, n, test_eq join a r _ n, ih hrest⟩

/-- The right table is asked for every row that is unread, and once more. -/
theorem ends_rows (calls rewinds : Nat)
    (hmade : ∀ x ∈ tests (unread.map (·.2)) block, ∃ made,
      Trial.test join.predicate join.maxTupleSize x = .ok made)
    (h : (join.machine left).Ends db asking?
      (.filling l (TableScan.reading rows [] (calls + (unread.length + 1)) rewinds true)
        pending.toList exhausted) log Q) :
    (join.machine left).Ends db asking?
      (.joining l (TableScan.reading rows unread calls rewinds false) block pending none exhausted)
      (List.replicate (unread.length + 1) block ++ log) Q := by
  induction unread generalizing calls with
  | nil =>
    refine .of_again_seen (asking?_joining l _ block pending exhausted) fun n => ⟨_, n, ?_, h⟩
    cases pending <;> rfl
  | cons row unread ih =>
    rw [List.map_cons, tests, List.flatMap_cons, ← tests] at hmade
    obtain ⟨hrow, hrest⟩ := List.forall_mem_append.1 hmade
    rw [List.length_cons, ← Nat.add_assoc, Nat.add_right_comm] at h
    have hnext := ends_untested hrow (ih (calls + 1) hrest h)
    refine .of_again_seen (asking?_joining l _ block pending exhausted) fun n => ⟨_, n, ?_, hnext⟩
    simp only [machine, step, State.joining, TableScan.next_reading_cons, Pile.toList_ofList]
    rfl

/-- The last block is joined once the left child has ended. -/
theorem ends_last (calls rewinds : Nat) (done : Bool)
    (hmade : ∀ x ∈ (split join.budget block []).flatMap (tests (rows.map (·.2))), ∃ made,
      Trial.test join.predicate join.maxTupleSize x = .ok made) :
    (join.machine left).Ends db asking?
      (.filling l (TableScan.reading rows unread calls rewinds done) block true)
      ((split join.budget block []).flatMap (List.replicate (rows.length + 1)))
      (·.calls = calls + (split join.budget block []).length * (rows.length + 1)) := by
  have hnone : ∀ calls rewinds unread done, (join.machine left).Ends db asking?
      (.filling l (TableScan.reading rows unread calls rewinds done) [] true) []
      (·.calls = calls) :=
    fun _ _ _ _ => .of_finish_unseen rfl fun n => ⟨_, n, rfl, rfl⟩
  cases block with
  | nil => simpa [split] using hnone calls rewinds unread done
  | cons b block =>
    rw [split, List.isEmpty_cons, if_neg Bool.false_ne_true, List.flatMap_cons, List.flatMap_nil]
      at hmade ⊢
    rw [List.append_nil] at hmade
    rw [List.length_singleton, Nat.one_mul]
    have hjoining : (join.machine left).Ends db asking?
        (.joining l (TableScan.reading rows rows calls (rewinds + 1) false) (b :: block) none none
          true) _ _ :=
      ends_rows calls _ hmade (hnone (calls + (rows.length + 1)) _ [] true)
    refine .of_again_unseen rfl fun n => ⟨_, n, ?_, hjoining⟩
    simp only [machine, step, State.filling, fill, Pile.isEmpty_ofList, List.isEmpty_cons, if_true,
      Bool.false_eq_true, if_false]
    rfl

/-- **For every block that is to come the right table is read once**, from any point at which left
tuples go into a block. -/
theorem ends_filling {lefts : List Tuple} (hl : left.Yields db none l lefts)
    (calls rewinds : Nat) (done : Bool)
    (hmade : ∀ x ∈ (split join.budget block lefts).flatMap (tests (rows.map (·.2))), ∃ made,
      Trial.test join.predicate join.maxTupleSize x = .ok made) :
    (join.machine left).Ends db asking?
      (.filling l (TableScan.reading rows unread calls rewinds done) block false)
      ((split join.budget block lefts).flatMap (List.replicate (rows.length + 1)))
      (·.calls = calls + (split join.budget block lefts).length * (rows.length + 1)) := by
  induction lefts generalizing l block unread calls rewinds done with
  | nil =>
    refine .of_again_unseen rfl fun n => ?_
    obtain ⟨l', n', hn⟩ := hl n
    have hlast : (join.machine left).Ends db asking?
        (.filling l' (TableScan.reading rows unread calls rewinds done) block true) _ _ :=
      ends_last calls rewinds done hmade
    refine ⟨_, n', ?_, hlast⟩
    simp only [machine, step, State.filling, fill, hn, Operator.ending]
    rfl
  | cons t lefts ih =>
    rw [split] at hmade ⊢
    split at hmade
    · rename_i hfull
      have hcount : ∀ blocks k : Nat, calls + (blocks + 1) * k = calls + k + blocks * k := by
        intro blocks k
        rw [Nat.add_mul, Nat.one_mul, Nat.add_right_comm, Nat.add_assoc]
      rw [if_pos hfull, List.flatMap_cons, List.length_cons, hcount]
      rw [List.flatMap_cons] at hmade
      obtain ⟨hblock, hrest⟩ := List.forall_mem_append.1 hmade
      refine .of_again_unseen rfl fun n => ?_
      obtain ⟨l', n', hn, hlefts⟩ := hl n
      have hjoining : (join.machine left).Ends db asking?
          (.joining l' (TableScan.reading rows rows calls (rewinds + 1) false) block (some t) none
            false) _ _ :=
        ends_rows calls _ hblock (ih hlefts (calls + (rows.length + 1)) _ true hrest)
      refine ⟨_, n', ?_, hjoining⟩
      simp only [machine, step, State.filling, fill, hn, Pile.isEmpty_ofList, hfull, if_true]
      rfl
    · rename_i hfits
      rw [if_neg hfits]
      refine .of_again_unseen rfl fun n => ?_
      obtain ⟨l', n', hn, hlefts⟩ := hl n
      have hfilling : (join.machine left).Ends db asking?
          (.filling l' (TableScan.reading rows unread calls rewinds done) (block ++ [t]) false)
          _ _ :=
        ih hlefts calls rewinds done hmade
      refine ⟨_, n', ?_, hfilling⟩
      simp only [machine, step, State.filling, fill, hn, Pile.isEmpty_ofList, hfits, State.take,
        Pile.push_ofList, bytes_append_singleton, Bool.false_eq_true, if_false]

/-! ## The join -/

variable {right : TableScan} {condition : Condition} {pages : Nat} {config : Config}

/-- **What a block join costs.** Whatever calls it was given, its block is no larger than the budget
unless it is a single tuple, and its bytes are counted. A drain that does not fail asks the right
table for all rows and once more, for one block after the other; the blocks are those of the left
tuples that are filled greedily. -/
theorem within_budget (hbind : bind left.schema right condition pages config = .ok join) :
    (∀ events s, (join.operator left).History (join.operator left).initial events s →
      ∀ db n, ∀ u ∈ s.body :: (join.machine left).visited db s.body n, u.block.toList ≠ [] →
        u.blockBytes = bytes u.block.toList ∧
          Allowed (min (pages * config.pageSize) largestBudget) u.block.toList) ∧
    ∀ db (s : (join.operator left).State) l lefts rows,
      left.start db s.body.left = (.ok (), l) → left.Yields db none l lefts →
      join.right.Reads db s.body.right rows →
      ∃ s' blocks, (join.operator left).start db s = (.ok (), s') ∧
        (∀ blocks', Greedy (min (pages * config.pageSize) largestBudget) lefts blocks' ↔
          blocks' = blocks) ∧
        ∀ n tuples u k, (join.operator left).drain db s' n = (tuples, none, u, k) →
          ((join.machine left).visited db s'.body n).filterMap asking? =
            blocks.flatMap (List.replicate (rows.length + 1)) ∧
          u.body.calls = s'.body.calls + blocks.length * (rows.length + 1) := by
  obtain ⟨-, -, hbudget, -⟩ := exists_of_bind hbind
  rw [← hbudget]
  constructor
  · intro events s hhistory db n u hu hne
    have hpreserves := join.preserves_bounded left
    have hs : s.body.Bounded join.budget := hpreserves.history hhistory ⟨rfl, .inl rfl⟩
    obtain ⟨hbytes, hempty | hallowed⟩ : u.Bounded join.budget := by
      rcases List.mem_cons.1 hu with rfl | hu
      · exact hs
      · exact hpreserves.visited db hs n u hu
    · exact absurd hempty hne
    · exact ⟨hbytes, hallowed⟩
  · intro db s l lefts rows hlstart hl hr
    obtain ⟨calls, rewinds, hstart⟩ := exists_start hlstart hr
    refine ⟨_, split join.budget [] lefts, hstart, fun blocks' => greedy_iff,
      fun n tuples u k hdrain => ?_⟩
    have hfollows : (join.machine left).Follows db tried?
        (.filling l (TableScan.reading rows rows calls rewinds false) [] false)
        (join.trial (allTests join.budget lefts (rows.map (·.2)))) :=
      follows_filling hl calls rewinds false
    obtain ⟨_, _, hdrain'⟩ := (hfollows.yields "BlockNestedLoopJoin" join.schema).drain_eq n
    have hstop : (join.trial (allTests join.budget lefts (rows.map (·.2)))).stop = none :=
      (Prod.mk.inj (Prod.mk.inj (hdrain'.symm.trans hdrain)).2).1
    have hends : (join.machine left).Ends db asking?
        (.filling l (TableScan.reading rows rows calls rewinds false) [] false) _ _ :=
      ends_filling hl calls rewinds false (Trial.stop_eq_none_iff.1 hstop)
    obtain ⟨v, hdrains, hv⟩ := hends n
    obtain ⟨tuples', k', hended⟩ := hdrains.exists_drain "BlockNestedLoopJoin" join.schema
    obtain rfl : u = ⟨v, true, false⟩ :=
      (Prod.mk.inj (Prod.mk.inj (Prod.mk.inj (hdrain.symm.trans hended)).2).2).1
    exact ⟨hdrains.filterMap_visited, hv⟩

/-- Two left tuples do not fit into one block, so the two rows are read twice, by three calls each
time. -/
theorem within_budget_integers :
    ∃ s' tuples u k, (integers.operator
        (Materialized.operator ⟨[.integer "a"], [⟨[2, 0, 0, 0]⟩, ⟨[1, 0, 0, 0]⟩]⟩)).drain
      { store := integersStore } s' 0 = (tuples, none, u, k) ∧
      u.body.calls = s'.body.calls + 6 := by
  let left : Materialized := ⟨[.integer "a"], [⟨[2, 0, 0, 0]⟩, ⟨[1, 0, 0, 0]⟩]⟩
  have hbind : bind left.operator.schema integers.right ⟨"a", .lt, .column "r.b"⟩ 1
      { pageSize := 4 } = .ok integers := rfl
  have hl := left.yields { store := integersStore } left.tuples
  let rows : List Row := [(1, ⟨[2, 0, 0, 0]⟩), (2, ⟨[3, 0, 0, 0]⟩)]
  have hr : integers.right.Reads { store := integersStore } TableScan.initial rows :=
    ⟨0, 0, rfl⟩
  obtain ⟨s', blocks, hstart, hblocks, hcost⟩ := (within_budget hbind).2 { store := integersStore }
    (integers.operator left.operator).initial _ left.tuples _ rfl hl hr
  obtain ⟨calls, rewinds, hstarted⟩ :=
    exists_start (s := (integers.operator left.operator).initial) rfl hr
  obtain rfl := (Prod.mk.inj (hstart.symm.trans hstarted)).2
  have hfollows : (integers.machine left.operator).Follows { store := integersStore } tried?
      (.filling ⟨left.tuples, true⟩ (TableScan.reading rows rows calls rewinds false) [] false) _ :=
    follows_filling hl calls rewinds false
  obtain ⟨u, k, hdrain⟩ := (hfollows.yields "BlockNestedLoopJoin" integers.schema).drain_eq 0
  have hgreedy : Greedy (min (1 * 4) largestBudget) left.tuples
      [[⟨[2, 0, 0, 0]⟩], [⟨[1, 0, 0, 0]⟩]] := greedy_iff.2 (by decide)
  obtain rfl := (hblocks _).1 hgreedy
  exact ⟨_, _, u, k, hdrain, (hcost 0 _ u k hdrain).2⟩

end BlockJoin

end QueryEngine
