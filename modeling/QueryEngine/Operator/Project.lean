import QueryEngine.Config
import QueryEngine.Operator.Machine

/-!
# Projection

A projection yields one tuple for each tuple of its child, made of some of its fields in a given
order. A field may be asked for more than once.
-/

namespace QueryEngine

/-- A projection whose attributes are bound to positions. -/
structure Project where
  /-- The layout of the child's tuples, with the limit on the ones made. -/
  layout : Layout
  positions : List Nat
  schema : Schema
  deriving DecidableEq, Repr

namespace Project

/-- A projection of tuples of a schema to the attributes with the given names. -/
def bind (input : Schema) (names : List String) (config : Config) : Except Error Project := do
  if names.isEmpty then throw (.invalidArgument .emptyProjection)
  let found ← names.mapM input.find
  return ⟨⟨input, config.maxTupleSize⟩, found.map (·.1), found.map (·.2)⟩

/-- Takes one tuple of the child. -/
def step (p : Project) (child : Operator) (db : Database) (s : child.State) (reads : Nat) :
    Step child.State :=
  match child.next db s reads with
  | ⟨.error e, s, n⟩ => .fail e s n
  | ⟨.ok none, s, n⟩ => .finish s n
  | ⟨.ok (some t), s, n⟩ =>
    match p.layout.project t p.positions with
    | .error e => .fail e s n
    | .ok t => .emit t s n

theorem progress (p : Project) (child : Operator) : WellFounded (Step.Later (p.step child)) := by
  refine Machine.ofRank child.finite id fun {db s n s'} h => ?_
  unfold step at h
  repeat' split at h
  all_goals simp only [Step.continuation, reduceCtorEq, Option.some.injEq] at h
  subst h
  exact ⟨_, _, _, _, ‹child.next db s n = _›⟩

def machine (p : Project) (child : Operator) : Machine where
  State := child.State
  initial := child.initial
  start := child.start
  step := p.step child
  close := child.close
  progress := p.progress child

/-- The projection of a child. -/
def operator (p : Project) (child : Operator) : Operator :=
  (p.machine child).operator "Project" p.schema

end Project

end QueryEngine
