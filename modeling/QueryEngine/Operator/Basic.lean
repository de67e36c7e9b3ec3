import QueryEngine.Store.Database

/-!
# Operators

An operator yields tuples one at a time. It is opened, pulled until it has no more, and closed; it
may be opened again, and pulled or closed at any time. All it remembers between calls is its state,
and all that it reads is the database it is handed with each call. Fetches by row id are counted in
a number that every pull takes and returns.

* `Operator.fold`, `Operator.drain`: what is made of the tuples of an open operator until the end
  or the first error. They end because an operator cannot yield for ever: `Operator.finite` says
  that `Operator.Later`, one tuple later, is well-founded.
* `Operator.collectTuples`, `Operator.collectValues`: a whole run, from opening to closing.
-/

namespace QueryEngine

/-- The outcome of pulling once: a tuple, or none at the end, or an error. -/
structure Pull (σ : Type) where
  answer : Except Error (Option Tuple)
  state : σ
  /-- The number of fetches made so far. -/
  reads : Nat

/-- The state `s'` is `s` one tuple later. -/
def Pull.Later {σ : Type} (next : Database → σ → Nat → Pull σ) (s' s : σ) : Prop :=
  ∃ db n n' t, next db s n = ⟨.ok (some t), s', n'⟩

/-- A source of tuples with all that can be done to it. -/
structure Operator where
  State : Type
  name : String
  schema : Schema
  /-- The state before anything was done. -/
  initial : State
  /-- Opens the operator, or opens it again. -/
  start : Database → State → Except Error Unit × State
  /-- Pulls once. -/
  next : Database → State → Nat → Pull State
  close : State → State
  /-- No state yields for ever. -/
  finite : WellFounded (Pull.Later next)

namespace Operator

variable {β : Type}

/-- One tuple later is a smaller state. -/
instance (op : Operator) : WellFoundedRelation op.State := ⟨Pull.Later op.next, op.finite⟩

/-- Takes in every tuple of an open operator, until the end or the first error. -/
def fold (op : Operator) (f : β → Tuple → Except Error β) (db : Database) (b : β) (s : op.State)
    (reads : Nat) : Except Error β × op.State × Nat :=
  match _h : op.next db s reads with
  | ⟨.error e, s', n⟩ => (.error e, s', n)
  | ⟨.ok none, s', n⟩ => (.ok b, s', n)
  | ⟨.ok (some t), s', n⟩ =>
    match f b t with
    | .error e => (.error e, s', n)
    | .ok b => fold op f db b s' n
termination_by s
decreasing_by exact ⟨_, _, _, _, _h⟩

/-- The tuples of an open operator, and the error they end in, if any. -/
def drain (op : Operator) (db : Database) (s : op.State) (reads : Nat) :
    List Tuple × Option Error × op.State × Nat :=
  match _h : op.next db s reads with
  | ⟨.error e, s', n⟩ => ([], some e, s', n)
  | ⟨.ok none, s', n⟩ => ([], none, s', n)
  | ⟨.ok (some t), s', n⟩ =>
    let (tuples, rest) := drain op db s' n
    (t :: tuples, rest)
termination_by s
decreasing_by exact ⟨_, _, _, _, _h⟩

/-- Pulls once and puts the tuple into a buffer, which is left as it is when there is none. The
answer is whether there was one. -/
def nextInto (op : Operator) (db : Database) (s : op.State) (reads : Nat) (buffer : Tuple) :
    Except Error Bool × Tuple × op.State × Nat :=
  match op.next db s reads with
  | ⟨.error e, s', n⟩ => (.error e, buffer, s', n)
  | ⟨.ok none, s', n⟩ => (.ok false, buffer, s', n)
  | ⟨.ok (some t), s', n⟩ => (.ok true, t, s', n)

/-- Opens an operator, takes all its tuples and closes it. After an error it is not closed. -/
def collectTuples (op : Operator) (db : Database) (s : op.State) (reads : Nat) :
    Except Error (List Tuple) × op.State × Nat :=
  match op.start db s with
  | (.error e, s) => (.error e, s, reads)
  | (.ok _, s) =>
    match op.drain db s reads with
    | (_, some e, s, n) => (.error e, s, n)
    | (tuples, none, s, n) => (.ok tuples, op.close s, n)

/-- The same, with every tuple as a row of values under the operator's schema. -/
def collectValues (op : Operator) (db : Database) (s : op.State) (reads : Nat) :
    Except Error (List (List Value)) × op.State × Nat :=
  let (tuples, s, n) := op.collectTuples db s reads
  (tuples.bind (·.mapM ({ schema := op.schema } : Layout).decode), s, n)

end Operator

end QueryEngine
