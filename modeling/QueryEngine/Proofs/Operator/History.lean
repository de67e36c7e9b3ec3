import QueryEngine.Operator.Basic

/-!
# Histories of operators

An operator may be opened, pulled and closed in any order. A history is a list of such calls with
their answers, as one who makes them sees it. Every call brings its own database, so that a history
says nothing about what became of the store in between.

* `Operator.Event`, `Operator.Answers`: one call, and what it does to the state. Pulling into a
  buffer is pulling (`Answers.cases`), so nothing that follows tells the two apart.
* `Operator.History`: the events that lead from one state to another.
-/

namespace QueryEngine.Operator

/-- A call with its answer. -/
inductive Event where
  | opened (db : Database) (answer : Except Error Unit)
  | pulled (db : Database) (reads : Nat) (answer : Except Error (Option Tuple))
  /-- The tuple `buffer` was there before the call, and `after` is there now. -/
  | pulledInto (db : Database) (reads : Nat) (buffer : Tuple) (answer : Except Error Bool)
    (after : Tuple)
  | closed

namespace Event

/-- The operator was opened, and not in vain. -/
def isOpening : Event → Bool
  | opened _ (.ok _) => true
  | _ => false

/-- What a pull answered, into a buffer or not. -/
def answer? : Event → Option (Except Error (Option Tuple))
  | pulled _ _ answer => some answer
  | pulledInto _ _ _ (.error e) _ => some (.error e)
  | pulledInto _ _ _ (.ok false) _ => some (.ok none)
  | pulledInto _ _ _ (.ok true) after => some (.ok (some after))
  | _ => none

/-- The error of a pull that failed. -/
def failure? (event : Event) : Option Error :=
  match event.answer? with
  | some (.error e) => some e
  | _ => none

/-- The database that the call was handed. -/
def database? : Event → Option Database
  | opened db _ | pulled db _ _ | pulledInto db _ _ _ _ => some db
  | closed => none

end Event

/-- From the state `s` a call with its answer leads to another state. -/
inductive Answers (op : Operator) (s : op.State) : Event → op.State → Prop where
  | opened {db answer s'} (start : op.start db s = (answer, s')) :
    Answers op s (.opened db answer) s'
  | pulled {db n answer s' n'} (next : op.next db s n = ⟨answer, s', n'⟩) :
    Answers op s (.pulled db n answer) s'
  | pulledInto {db n buffer answer after s' n'}
    (next : op.nextInto db s n buffer = (answer, after, s', n')) :
    Answers op s (.pulledInto db n buffer answer after) s'
  | closed : Answers op s .closed (op.close s)

/-- From the state `s` some events lead to another state. -/
inductive History (op : Operator) : op.State → List Event → op.State → Prop where
  | nil {s} : History op s [] s
  | cons {s u v event events} (first : op.Answers s event u) (rest : History op u events v) :
    History op s (event :: events) v

variable {op : Operator} {s u v : op.State} {event : Event} {events events' : List Event}

/-- Opening, pulling or closing: there is nothing else. -/
theorem Answers.cases (h : op.Answers s event u) :
    (∃ db answer, event = .opened db answer ∧ op.start db s = (answer, u)) ∨
      (∃ db n answer n', event.database? = some db ∧ event.answer? = some answer ∧
        op.next db s n = ⟨answer, u, n'⟩) ∨
      event = .closed ∧ u = op.close s := by
  cases h with
  | opened start => exact .inl ⟨_, _, rfl, start⟩
  | pulled next => exact .inr (.inl ⟨_, _, _, _, rfl, rfl, next⟩)
  | pulledInto next =>
    refine .inr (.inl ?_)
    unfold nextInto at next
    split at next
    · rename_i hnext
      obtain ⟨rfl, rfl, rfl, rfl⟩ := next
      exact ⟨_, _, _, _, rfl, rfl, hnext⟩
    · rename_i hnext
      obtain ⟨rfl, rfl, rfl, rfl⟩ := next
      exact ⟨_, _, _, _, rfl, rfl, hnext⟩
    · rename_i hnext
      obtain ⟨rfl, rfl, rfl, rfl⟩ := next
      exact ⟨_, _, _, _, rfl, rfl, hnext⟩
  | closed => exact .inr (.inr ⟨rfl, rfl⟩)

/-- A pull, seen from its answer. -/
theorem Answers.exists_next {answer : Except Error (Option Tuple)} (h : op.Answers s event u)
    (ha : event.answer? = some answer) :
    ∃ db n n', event.database? = some db ∧ op.next db s n = ⟨answer, u, n'⟩ := by
  rcases h.cases with ⟨db, a, rfl, -⟩ | ⟨db, n, answer', n', hdb, ha', hnext⟩ | ⟨rfl, -⟩
  · simp [Event.answer?] at ha
  · obtain rfl : answer' = answer := Option.some.inj (ha'.symm.trans ha)
    exact ⟨db, n, n', hdb, hnext⟩
  · simp [Event.answer?] at ha

theorem history_cons_iff :
    op.History s (event :: events) v ↔ ∃ u, op.Answers s event u ∧ op.History u events v :=
  ⟨fun h => by cases h with | cons first rest => exact ⟨_, first, rest⟩,
    fun ⟨_, first, rest⟩ => .cons first rest⟩

theorem history_append_iff :
    op.History s (events ++ events') v ↔ ∃ u, op.History s events u ∧ op.History u events' v := by
  induction events generalizing s with
  | nil => exact ⟨fun h => ⟨s, .nil, h⟩, fun ⟨u, hu, hv⟩ => by cases hu; exact hv⟩
  | cons event events ih =>
    rw [List.cons_append, history_cons_iff]
    constructor
    · rintro ⟨s₁, first, rest⟩
      obtain ⟨u, hu, hv⟩ := ih.1 rest
      exact ⟨u, .cons first hu, hv⟩
    · rintro ⟨u, hu, hv⟩
      obtain ⟨s₁, first, rest⟩ := history_cons_iff.1 hu
      exact ⟨s₁, first, ih.2 ⟨u, rest, hv⟩⟩

/-- What every call keeps, a history does. -/
theorem History.induction {motive : op.State → Prop}
    (step : ∀ s event u, event ∈ events → op.Answers s event u → motive s → motive u)
    (h : op.History s events u) (hs : motive s) : motive u := by
  induction h with
  | nil => exact hs
  | cons first rest ih =>
    exact ih (fun s event u he => step s event u (List.mem_cons_of_mem _ he))
      (step _ _ _ List.mem_cons_self first hs)

end QueryEngine.Operator
