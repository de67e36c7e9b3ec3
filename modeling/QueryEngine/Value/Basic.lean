import QueryEngine.DataType
import QueryEngine.Numeric.Decimal
import QueryEngine.Text.Utf8

/-!
# Values

A value is one field of a tuple. Text is a byte string and is only read as UTF-8 to be shown.
The order of values, which not all pairs of values have, is in `QueryEngine.Value.Order`.
-/

namespace QueryEngine

/-- What a field holds. -/
inductive Value where
  | integer (n : Int32)
  | real (x : Single)
  | text (bytes : List UInt8)
  deriving DecidableEq, Repr

namespace Value

def dataType : Value → DataType
  | integer _ => .integer
  | real _ => .real
  | text _ => .text

def toInt32? : Value → Option Int32
  | integer n => some n
  | _ => none

def toSingle? : Value → Option Single
  | real x => some x
  | _ => none

def toBytes? : Value → Option (List UInt8)
  | text bytes => some bytes
  | _ => none

/-- The text of a value that is UTF-8 text. -/
def toString? (v : Value) : Option String := v.toBytes?.bind Utf8.decode?

/-- A numeric value in eight bytes, which hold every such value exactly. -/
def toDouble? : Value → Option Double
  | integer n => some (.ofInt n.toInt)
  | real x => some x.convert
  | text _ => none

/-- The number of bytes of the encoded value. -/
def encodedLength : Value → Nat
  | integer _ | real _ => 4
  | text bytes => 4 + bytes.length

/-- Numeric and bytewise equality. Unlike identity it takes both zeros as one number, and a real
that is not a number as different from everything. -/
def eq : Value → Value → Bool
  | integer m, integer n => m == n
  | real x, real y => x.eq y
  | text s, text t => s == t
  | _, _ => false

/-- How a value is shown in conditions, ranges and messages. -/
def display : Value → String
  | integer n => toString n.toInt
  | real x => x.text
  | text bytes => Utf8.decodeLossy bytes

end Value

end QueryEngine
