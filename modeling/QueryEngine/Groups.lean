import QueryEngine.Key.Map

/-!
# Groups

What is kept per distinct value of one type, in ascending order of the values.
-/

namespace QueryEngine

/-- Something kept for each value of one type that occurred. -/
structure Groups (α : Type) where
  keyType : DataType
  items : KeyMap α

namespace Groups

variable {α : Type}

/-- No groups yet, for values of the given type. -/
def empty (keyType : DataType) : Groups α := ⟨keyType, .empty⟩

/-- Changes what is kept for the group of `v`, starting from `initial` in a new group. -/
def update (g : Groups α) (v : Value) (initial : α) (f : α → α) : Except Error (Groups α) := do
  let k ← Key.typed v g.keyType
  return { g with items := g.items.update k fun a => f (a.getD initial) }

/-- What is kept for the group of `v`. -/
def get? (g : Groups α) (v : Value) : Except Error (Option α) := do
  return g.items.get? (← Key.typed v g.keyType)

def size (g : Groups α) : Nat := g.items.size

def isEmpty (g : Groups α) : Bool := g.items.isEmpty

/-- The groups in ascending order, each under the value its key stands for. -/
def toList (g : Groups α) : List (Value × α) := g.items.entries.map fun e => (e.1.toValue, e.2)

end Groups

end QueryEngine
