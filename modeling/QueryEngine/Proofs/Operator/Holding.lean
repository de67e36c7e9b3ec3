import QueryEngine.Proofs.Operator.BlockJoin
import QueryEngine.Proofs.Operator.Drain
import QueryEngine.Proofs.Operator.KeepingJoins

/-!
# What joins hold and what they give

A join gives no tuple that is longer than its limit. What it holds in between is not measured: the
block and the tuple that waits for the next one, the partitions, the table and the tuple that is
looked up in it are tuples of its children, as long as they came. So the limit holds for them only
if the children keep to it.

* `Operator.Gives`: what all tuples of an operator are, over some databases.
* `Machine.Stays`: what all states of a machine are, between calls and in the middle of them.
* `joins_hold`: joins hold nothing but tuples of their children, and give nothing above the limit.
* `BlockJoin.not_always_within`: tuples above the limit are held.
-/

namespace QueryEngine

open Operator (Event Among)

variable {dbs : Database → Prop} {good : Tuple → Prop}

/-! ## Operators -/

/-- Calls over some databases, of which nothing is known but that they are among these. -/
def Setting.among (dbs : Database → Prop) : Setting where
  changes _ db := dbs db
  stays h := h
  may _ := True
  refuses _ := True

namespace Operator

variable {op : Operator} {s u : op.State} {event : Event}

/-- Every tuple that the operator gives over some databases is good. -/
def Gives (op : Operator) (dbs : Database → Prop) (good : Tuple → Prop) : Prop :=
  ∀ events s, op.History op.initial events s → Among dbs events →
    ∀ event ∈ events, ∀ t, event.answer? = some (.ok (some t)) → good t

/-- Calls over some databases lead to the state. -/
def Reached (op : Operator) (dbs : Database → Prop) (s : op.State) : Prop :=
  ∃ events, op.History op.initial events s ∧ Among dbs events

theorem reached_initial : op.Reached dbs op.initial := ⟨[], .nil, fun _ h => nomatch h⟩

theorem Reached.answers (h : op.Reached dbs s) (hdbs : ∀ db ∈ event.database?, dbs db)
    (hanswers : op.Answers s event u) : op.Reached dbs u := by
  obtain ⟨events, hhistory, hamong⟩ := h
  refine ⟨events ++ [event], history_append_iff.2 ⟨s, hhistory, .cons hanswers .nil⟩, ?_⟩
  exact List.forall_mem_append.2 ⟨hamong, List.forall_mem_singleton.2 hdbs⟩

theorem gives_trivial : op.Gives dbs fun _ => True := fun _ _ _ _ _ _ _ _ => trivial

/-- That a state is reached, as a contract. -/
def reaching (op : Operator) (dbs : Database → Prop) : Contract (.among dbs) op.State :=
  .always _ (op.Reached dbs)

/-- A pull from a state that is reached leads to another one. -/
theorem Gives.pulled (h : op.Gives dbs good) : op.Pulled (op.reaching dbs) good := by
  intro running db s hdb hs n
  rcases hnext : op.next db s n with ⟨answer, s', n'⟩
  have hdbs : ∀ db' ∈ (Event.pulled db n answer).database?, dbs db' :=
    fun _ h => Option.mem_some_iff.1 h ▸ hdb
  have hreached : op.Reached dbs s' := Reached.answers hs hdbs (.pulled hnext)
  rcases answer with e | _ | t
  · exact ⟨fun _ => trivial, hreached⟩
  · exact hreached
  · refine ⟨?_, hreached⟩
    obtain ⟨events, hhistory, hamong⟩ := hs
    exact h (events ++ [.pulled db n (.ok (some t))]) s'
      (history_append_iff.2 ⟨s, hhistory, .cons (.pulled hnext) .nil⟩)
      (List.forall_mem_append.2 ⟨hamong, List.forall_mem_singleton.2 hdbs⟩) _
      (List.mem_append_right _ List.mem_cons_self) t rfl

theorem starts_reaching {db : Database} (hdb : dbs db) (hs : op.Reached dbs s) :
    (op.reaching dbs).Starts false db (op.start db s) := by
  rcases hstart : op.start db s with ⟨answer, s'⟩
  have hdbs : ∀ db' ∈ (Event.opened db answer).database?, dbs db' :=
    fun _ h => Option.mem_some_iff.1 h ▸ hdb
  have hreached : op.Reached dbs s' := hs.answers hdbs (.opened hstart)
  cases answer with
  | error e => exact ⟨fun h => (by cases h), hreached⟩
  | ok a => exact hreached

theorem Reached.close (h : op.Reached dbs s) : op.Reached dbs (op.close s) :=
  h.answers (by simp [Event.database?]) .closed

theorem follows_among {db : Database} {events : List Event} (h : Among dbs events) :
    Follows (Setting.among dbs).changes db events := by
  induction events generalizing db with
  | nil => trivial
  | cons event events ih =>
    obtain ⟨hevent, hevents⟩ := List.forall_mem_cons.1 h
    exact ⟨hevent, ih hevents⟩

/-- An operator that keeps a contract gives the tuples that it says. -/
theorem Keeps.gives {c : Contract (.among dbs) op.State} (h : op.Keeps c good) :
    op.Gives dbs good := by
  intro events s hhistory hamong event hmem t ht
  obtain ⟨db, hdb⟩ : ∃ db, event.database? = some db := by
    cases event with
    | opened db | pulled db | pulledInto db => exact ⟨db, rfl⟩
    | closed => cases ht
  have hdbs : dbs db := hamong event hmem db hdb
  have hfollows : Follows (Setting.among dbs).changes db events := follows_among hamong
  exact (h.history hfollows (h.initial hdbs) hhistory).2 event hmem t ht

end Operator

/-! ## Machines -/

namespace Machine

variable {m : Machine} {P Q : m.State → Prop} {name : String} {schema : Schema}

/-- Every state of the machine has a property, between calls over some databases and in the middle
of them. -/
def Stays (m : Machine) (dbs : Database → Prop) (P : m.State → Prop) : Prop :=
  ∀ name schema events s,
    (m.operator name schema).History (m.operator name schema).initial events s →
    Among dbs events → ∀ db n, dbs db → ∀ u ∈ s.body :: m.visited db s.body n, P u

/-- A contract that calls outside of runs keep. -/
theorem confines_of_contract {c : Contract (.among dbs) m.State}
    (start : ∀ db s, dbs db → c.holds false db s → c.Starts false db (m.start db s))
    (step : ∀ db s n, dbs db → c.holds false db s → c.Steps good false db (m.step db s n))
    (close : ∀ db s, c.holds false db s → c.holds false db (m.close s)) :
    m.Confines dbs (fun s => ∀ db, dbs db → c.holds false db s) good := by
  -- it does not matter which of the databases a state is left in
  have hall : ∀ db s, c.holds false db s → ∀ db', dbs db' → c.holds false db' s :=
    fun db s hs db' hdb' => c.persists (show (Setting.among dbs).changes db db' from hdb') hs
  refine ⟨fun db s hdb hs => ?_, fun db s n hdb hs => ?_, fun s hs db hdb => close db s (hs db hdb)⟩
  · have hstarts := start db s hdb (hs db hdb)
    refine hall db _ ?_
    rcases hstart : m.start db s with ⟨_ | _, s'⟩ <;> rw [hstart] at hstarts
    · exact hstarts.2
    · exact c.weaken hstarts
  · have hsteps := step db s n hdb (hs db hdb)
    cases hstep : m.step db s n with
    | again s' n' =>
      rw [hstep] at hsteps
      exact hall db s' hsteps
    | settled pull =>
      rw [hstep] at hsteps
      obtain ⟨_ | _ | t, s', n'⟩ := pull
      · exact ⟨hall db s' hsteps.2, fun t ht => by cases ht⟩
      · exact ⟨hall db s' hsteps, fun t ht => by cases ht⟩
      · exact ⟨hall db s' hsteps.2, fun t' ht' => by cases ht'; exact hsteps.1⟩

theorem Confines.gives (h : m.Confines dbs P good) (hinitial : P m.initial) :
    (m.operator name schema).Gives dbs good :=
  fun _ _ hhistory hamong => (h.history hamong hhistory hinitial).2

theorem Confines.stays (h : m.Confines dbs P good) (hinitial : P m.initial)
    (himp : ∀ db s, dbs db → P s → Q s) : m.Stays dbs Q := by
  intro name schema events s hhistory hamong db n hdb u hu
  have hs := (h.history hamong hhistory hinitial).1
  refine himp db u hdb ?_
  rcases List.mem_cons.1 hu with rfl | hu
  · exact hs
  · exact h.visited hdb hs n u hu

end Machine

/-! ## Joins -/

theorem Tuple.meets_joinWithin (limit : Nat) (s t : Tuple) :
    Meets (·.length ≤ limit) (fun _ => True) (s.joinWithin limit t) := by
  unfold joinWithin
  split
  · trivial
  · rename_i hle
    exact Nat.le_of_not_lt hle

namespace BlockJoin

variable {join : BlockJoin} {left : Operator}

/-- The left tuples that are held: those of the block, and the one that waits for the next. -/
def State.held {σ : Type} (s : State σ) : List Tuple := s.block.toList ++ s.pending.toList

theorem good_of_fit {σ : Type} {s : State σ}
    (h : (∀ t ∈ s.block.toList, good t) ∧ s.phase.Fit good fun _ => True) :
    ∀ t ∈ s.held, good t := by
  obtain ⟨hblock, hphase⟩ := h
  refine List.forall_mem_append.2 ⟨hblock, fun t ht => ?_⟩
  rw [State.pending, Option.mem_toList] at ht
  split at ht
  · cases ht
  · rename_i hp
    rw [hp] at hphase
    exact hphase.1 t ht

/-- The left child is in a state that is reached, and the left tuples that are held are good. -/
def holding (left : Operator) (dbs : Database → Prop) (good : Tuple → Prop) :
    Contract (.among dbs) (State left.State) :=
  contract (left.reaching dbs) (TableScan.contract _ fun _ => True) good fun _ => True

theorem holding_initial (db : Database) :
    (holding left dbs good).holds false db (join.machine left).initial :=
  ⟨⟨Operator.reached_initial, fun h => (by cases h), fun _ h => nomatch h⟩,
    fun _ h => (nomatch h), trivial⟩

theorem confines (hleft : left.Gives dbs good) :
    (join.machine left).Confines dbs (fun s => ∀ db, dbs db → (holding left dbs good).holds
      false db s) (·.length ≤ join.maxTupleSize) := by
  have hright : join.right.operator.Keeps (TableScan.contract (.among dbs) fun _ => True)
      fun _ => True :=
    TableScan.keeps fun _ => meets_iff.2 ⟨fun _ _ => ⟨fun _ _ => trivial, fun _ _ => trivial,
      fun _ _ _ _ => trivial, fun _ _ _ => trivial⟩, fun _ _ => trivial⟩
  have hjoins : join.Joins (.among dbs) good (fun _ => True) (·.length ≤ join.maxTupleSize) :=
    ⟨fun _ _ _ _ => meets_trivial _, fun l r _ _ => l.meets_joinWithin _ r⟩
  refine Machine.confines_of_contract (fun db s hdb hs => ?_) (fun db s n hdb hs => ?_)
    fun db s hs => ?_
  · exact starts (Operator.starts_reaching hdb hs.1.1) hright hdb hs
  · exact steps hleft.pulled hright (fun _ _ _ h => TableScan.starts_rewind h) hjoins hdb hs
  · exact ⟨⟨hs.1.1.close, TableScan.holds_close db s.right⟩, fun _ h => (nomatch h), trivial⟩

end BlockJoin

namespace HashJoin

variable {join : HashJoin} {left right : Operator}

/-- The children are in states that are reached, and the tuples that are held are good. -/
def holding (join : HashJoin) (left right : Operator) (dbs : Database → Prop)
    (good : Tuple → Prop) : Contract (.among dbs) (State left.State right.State) :=
  join.contract (left.reaching dbs) (right.reaching dbs) fun _ => good

theorem holding_initial (db : Database) :
    (join.holding left right dbs good).holds false db (join.machine left right).initial :=
  ⟨⟨Operator.reached_initial, Operator.reached_initial⟩, trivial⟩

theorem confines (hleft : left.Gives dbs good) (hright : right.Gives dbs good) :
    (join.machine left right).Confines dbs (fun s => ∀ db, dbs db →
      (join.holding left right dbs good).holds false db s) (·.length ≤ join.maxTupleSize) := by
  have hjoins : join.Joins (.among dbs) (fun _ => good) (·.length ≤ join.maxTupleSize) :=
    ⟨fun _ _ _ => meets_trivial _, fun _ _ => trivial, fun l r _ _ => l.meets_joinWithin _ r⟩
  refine Machine.confines_of_contract (fun db s hdb hs => ?_) (fun db s n hdb hs => ?_)
    fun db s hs => ?_
  · exact starts (Operator.starts_reaching hdb hs.1.1) (Operator.starts_reaching hdb hs.1.2) hs
  · exact steps hleft.pulled hright.pulled hjoins hdb hs
  · exact ⟨⟨hs.1.1.close, hs.1.2.close⟩, s.phase.fit_close⟩

end HashJoin

/-- **Joins give no tuple above the limit, and hold tuples that their children gave**, between
calls and in the middle of them. -/
theorem joins_hold (config : Config) :
    (∀ {left : Operator} {right : TableScan} {condition : Condition} {pages : Nat}
      {join : BlockJoin}, BlockJoin.bind left.schema right condition pages config = .ok join →
        (∀ dbs, (join.operator left).Gives dbs (·.length ≤ config.maxTupleSize)) ∧
        ∀ dbs good, left.Gives dbs good →
          (join.machine left).Stays dbs fun s => ∀ t ∈ s.held, good t) ∧
    ∀ {left right : Operator} {condition : Condition} {partitions : Nat} {route : Key → Nat}
      {join : HashJoin},
      HashJoin.bind left.schema right.schema condition partitions route config = .ok join →
        (∀ dbs, (join.operator left right).Gives dbs (·.length ≤ config.maxTupleSize)) ∧
        ∀ dbs good, left.Gives dbs good → right.Gives dbs good →
          (join.machine left right).Stays dbs fun s => s.phase.Fit join fun _ => good := by
  constructor
  · intro left right condition pages join hbind
    obtain ⟨-, -, -, hmax⟩ := BlockJoin.exists_of_bind hbind
    rw [← hmax]
    refine ⟨fun dbs => ?_, fun dbs good hleft => ?_⟩
    · exact (BlockJoin.confines Operator.gives_trivial).gives fun db _ =>
        BlockJoin.holding_initial db
    · exact (BlockJoin.confines hleft).stays (fun db _ => BlockJoin.holding_initial db)
        fun db s hdb hs => BlockJoin.good_of_fit (hs db hdb).2
  · intro left right condition partitions route join hbind
    obtain ⟨-, -, -, hmax⟩ := HashJoin.exists_of_bind hbind
    rw [← hmax]
    refine ⟨fun dbs => ?_, fun dbs good hleft hright => ?_⟩
    · exact (HashJoin.confines Operator.gives_trivial Operator.gives_trivial).gives fun db _ =>
        HashJoin.holding_initial db
    · exact (HashJoin.confines hleft hright).stays (fun db _ => HashJoin.holding_initial db)
        fun db s hdb hs => (hs db hdb).2

/-- Joins of integers hold tuples of four bytes. -/
theorem joins_hold_integers :
    let left : Materialized := ⟨[.integer "a"], [⟨[1, 0, 0, 0]⟩, ⟨[2, 0, 0, 0]⟩]⟩
    let right : Materialized := ⟨[.integer "b"], [⟨[2, 0, 0, 0]⟩]⟩
    ((BlockJoin.integers.machine left.operator).Stays (fun _ => True)
      fun s => ∀ t ∈ s.held, t.length = 4) ∧
    (HashJoin.integers.machine left.operator right.operator).Stays (fun _ => True)
      fun s => s.phase.Fit HashJoin.integers fun _ t => t.length = 4 := by
  intro left right
  have hgives : ∀ leaf : Materialized, (∀ t ∈ leaf.tuples, t.length = 4) →
      leaf.operator.Gives (fun _ => True) (·.length = 4) :=
    fun leaf h => Operator.Keeps.gives (leaf.keeps h)
  have hleft := hgives left (by decide)
  have hright := hgives right (by decide)
  have hblocks : BlockJoin.bind left.operator.schema BlockJoin.integers.right
      ⟨"a", .lt, .column "r.b"⟩ 1 { pageSize := 4 } = .ok BlockJoin.integers := rfl
  have hhash : HashJoin.bind left.operator.schema right.operator.schema ⟨"a", .eq, .column "b"⟩ 2
      (fun _ => 1) {} = .ok HashJoin.integers := rfl
  exact ⟨((joins_hold { pageSize := 4 }).1 hblocks).2 _ _ hleft,
    ((joins_hold {}).2 hhash).2 _ _ hleft hright⟩

namespace BlockJoin

/-- A join of texts with a limit of eight bytes. -/
def texts : BlockJoin where
  right := ⟨"r", [.text "r.b" 8]⟩
  condition := ⟨"a", .eq, .column "r.b"⟩
  predicate := ⟨⟨[.text "a" 8], 4096⟩, ⟨[.text "r.b" 8], 4096⟩, 0, 0, .eq, .text⟩
  budget := 4096
  maxTupleSize := 8
  schema := [.text "a" 8, .text "r.b" 8]

/-- A left tuple above the limit is taken into the block. -/
theorem not_always_within :
    ¬∀ {left : Operator} {right : TableScan} {condition : Condition} {pages : Nat}
      {config : Config} {join : BlockJoin},
      bind left.schema right condition pages config = .ok join →
        (join.machine left).Stays (fun _ => True)
          fun s => ∀ t ∈ s.held, t.length ≤ config.maxTupleSize := by
  intro hall
  let long : Tuple := ⟨[8, 0, 0, 0, 120, 120, 120, 120, 120, 120, 120, 120]⟩
  let left : Operator := Materialized.operator ⟨[.text "a" 8], [long]⟩
  let db : Database := { store := { tables := [("r", ⟨⟨[.text "b" 8], 4096⟩, [], []⟩)] } }
  have hbind : bind left.schema texts.right texts.condition 1 { maxTupleSize := 8 } = .ok texts :=
    rfl
  obtain ⟨right, hstart⟩ : ∃ right, (texts.operator left).start db (texts.operator left).initial =
      (.ok (), ⟨.fresh ⟨[long], true⟩ right, true, false⟩) := ⟨_, rfl⟩
  let filled : State left.State := (State.fresh ⟨[], true⟩ right).take long
  have hstep : (texts.machine left).step db (.fresh ⟨[long], true⟩ right) 0 = .again filled 0 := rfl
  have hvisited : filled ∈ (texts.machine left).visited db (.fresh ⟨[long], true⟩ right) 0 := by
    rw [Machine.visited_of_continuation (.inl hstep)]
    exact List.mem_cons_of_mem _ Machine.mem_visited
  have hwithin : long.length ≤ 8 := hall hbind _ _ _ _ (.cons (.opened hstart) .nil)
    (fun _ _ _ _ => trivial) db 0 trivial filled (List.mem_cons_of_mem _ hvisited) long
    List.mem_cons_self
  exact absurd hwithin (by decide)

end BlockJoin

end QueryEngine
