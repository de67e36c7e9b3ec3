import QueryEngine.Key.Map
import QueryEngine.Pile

/-!
# Multimaps

Items stored under values of one type. Items under equal values come back in the order in which
they were put in.
-/

namespace QueryEngine

/-- Items under the keys of values of one type, with their number. -/
structure Multimap (α : Type) where
  keyType : DataType
  buckets : KeyMap (Pile α)
  size : Nat

namespace Multimap

variable {α : Type}

def empty (keyType : DataType) : Multimap α := ⟨keyType, .empty, 0⟩

/-- Puts an item under a value. -/
def insert (m : Multimap α) (v : Value) (item : α) : Except Error (Multimap α) := do
  let k ← Key.typed v m.keyType
  let buckets := m.buckets.update k fun bucket => (bucket.getD .empty).push item
  return { m with buckets, size := m.size + 1 }

/-- The items under a value. -/
def get (m : Multimap α) (v : Value) : Except Error (List α) := do
  return ((m.buckets.get? (← Key.typed v m.keyType)).getD .empty).toList

def isEmpty (m : Multimap α) : Bool := m.size == 0

/-- The number of different values that have items. -/
def keyCount (m : Multimap α) : Nat := m.buckets.size

end Multimap

end QueryEngine
