import QueryEngine.Error

/-!
# Attributes and schemas

An attribute is a named column with a type and a width; a schema is a list of them. The width of
a text attribute is the most bytes its content may have. Names are qualified by the relation they
come from when a scan reads it.
-/

namespace QueryEngine

/-- A named field of a table or of an operator's tuples. The length bounds the bytes of a text. -/
structure Attribute where
  name : String
  dataType : DataType
  length : Nat
  deriving DecidableEq, Repr

/-- The fields of a tuple in their order. -/
abbrev Schema : Type := List Attribute

namespace Attribute

def integer (name : String) : Attribute := ⟨name, .integer, 4⟩

def real (name : String) : Attribute := ⟨name, .real, 4⟩

def text (name : String) (length : Nat) : Attribute := ⟨name, .text, length⟩

/-- The attribute under the name `relation.name`. -/
def qualified (a : Attribute) (relation : String) : Attribute :=
  { a with name := s!"{relation}.{a.name}" }

/-- The most bytes that an encoded value of the attribute can have. -/
def maxEncodedLength (a : Attribute) : Nat :=
  match a.dataType.fixedWidth? with
  | some width => width
  | none => 4 + a.length

def display (a : Attribute) : String := s!"{a.name} {a.dataType.name}({a.length})"

end Attribute

namespace Schema

/-- The first attribute called `name`, with its position. -/
def find? (name : String) : Schema → Option (Nat × Attribute)
  | [] => none
  | a :: rest =>
    if a.name = name then some (0, a) else (find? name rest).map fun p => (p.1 + 1, p.2)

/-- The first attribute called `name`, with its position, or an error that names it. -/
def find (schema : Schema) (name : String) : Except Error (Nat × Attribute) :=
  match schema.find? name with
  | some found => .ok found
  | none => .error (.columnNotFound name)

/-- The position of the first attribute called `name`. -/
def position (schema : Schema) (name : String) : Except Error Nat :=
  (schema.find name).map (·.1)

/-- The schema as a scan of `relation` yields it. -/
def qualified (schema : Schema) (relation : String) : Schema :=
  schema.map (·.qualified relation)

theorem find?_eq_some {schema : Schema} {name : String} {i : Nat} {a : Attribute}
    (h : schema.find? name = some (i, a)) : schema[i]? = some a ∧ a.name = name := by
  induction schema generalizing i with
  | nil => simp [find?] at h
  | cons b rest ih =>
    rw [find?] at h
    split at h
    · simp only [Option.some.injEq, Prod.mk.injEq] at h
      obtain ⟨rfl, rfl⟩ := h
      exact ⟨rfl, by assumption⟩
    · obtain ⟨p, hp, he⟩ := Option.map_eq_some_iff.1 h
      simp only [Prod.mk.injEq] at he
      obtain ⟨rfl, rfl⟩ := he
      simpa using ih hp

end Schema

end QueryEngine
