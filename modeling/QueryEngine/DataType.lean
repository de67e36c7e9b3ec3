import QueryEngine.Text.UpperCase

/-!
# The types of attributes

Every attribute has one of three types. `DataType.code` numbers them as they are stored,
`DataType.text` names them in messages and schemas, and `DataType.parse?` reads a name.
-/

namespace QueryEngine

/-- The types of values. -/
inductive DataType where
  /-- A thirty-two-bit signed integer. -/
  | integer
  /-- A four-byte binary number. -/
  | real
  /-- A byte string with a length before it. -/
  | text
  deriving DecidableEq, Repr

namespace DataType

def isNumeric : DataType → Bool
  | integer | real => true
  | text => false

/-- The number of bytes of an encoded value, where the type alone decides it. -/
def fixedWidth? : DataType → Option Nat
  | integer | real => some 4
  | text => none

def code : DataType → Nat
  | integer => 0
  | real => 1
  | text => 2

def ofCode? : Nat → Option DataType
  | 0 => some integer
  | 1 => some real
  | 2 => some text
  | _ => none

def name : DataType → String
  | integer => "INTEGER"
  | real => "REAL"
  | text => "TEXT"

/-- The type called `name` in any mixture of cases, by its own name or by a usual other one. -/
def parse? (name : String) : Option DataType :=
  match Text.toUpperCase name with
  | "INTEGER" | "INT" => some integer
  | "REAL" | "FLOAT" => some real
  | "TEXT" | "VARCHAR" | "CHAR" => some text
  | _ => none

theorem ofCode?_code (t : DataType) : ofCode? t.code = some t := by cases t <;> rfl

end DataType

end QueryEngine
