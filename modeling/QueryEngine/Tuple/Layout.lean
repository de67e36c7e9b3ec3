import QueryEngine.Attribute
import QueryEngine.Tuple.Basic
import QueryEngine.Tuple.Codec

/-!
# Layouts

A layout encodes the rows of one schema and reads fields out of their tuples. It refuses rows that
do not fit the schema and tuples longer than its limit. Bytes that are no tuple of the schema are
found out when they are read.

* `Layout.encode`, `Layout.decode`: a row of values as a tuple, and back.
* `Layout.fieldSpan`, `Layout.field`: where a field lies in a tuple, and its value.
* `Layout.encodedLength`: how many bytes the tuple at the front of some bytes takes.
* `Layout.project`: the tuple of some of the fields, byte for byte.
-/

namespace QueryEngine

/-- The size of one page, which limits tuples where nothing else is said. -/
def defaultMaxTupleSize : Nat := 4096

/-- A schema to read tuples by, with a limit on the tuples made. -/
structure Layout where
  schema : Schema
  maxTupleSize : Nat := defaultMaxTupleSize
  deriving DecidableEq, Repr

namespace Attribute

/-- Refuses a value that the attribute cannot hold. -/
def check (a : Attribute) (v : Value) : Except Error Unit := do
  v.expectType a.dataType
  match v with
  | .text bytes =>
    if a.length < bytes.length then .error (.valueTooLong a.name a.length bytes.length) else .ok ()
  | _ => .ok ()

end Attribute

namespace Layout

/-- Refuses a tuple of more bytes than the limit. -/
def checkSize (l : Layout) (size : Nat) : Except Error Unit :=
  if l.maxTupleSize < size then .error (.tupleTooLarge size l.maxTupleSize) else .ok ()

/-- The bytes of a row, checked field by field. -/
def encodeFields : Schema → List Value → Except Error (List UInt8)
  | a :: schema, v :: values => do
    a.check v
    return v.encode ++ (← encodeFields schema values)
  | _, _ => .ok []

/-- The number of bytes that a row takes. -/
def rowLength : List Value → Nat
  | [] => 0
  | v :: values => v.encodedLength + rowLength values

/-- The tuple of a row. The number of values is checked first, then the size, then each field. -/
def encode (l : Layout) (values : List Value) : Except Error Tuple := do
  if values.length ≠ l.schema.length then
    throw (.arityMismatch l.schema.length values.length)
  l.checkSize (rowLength values)
  return ⟨← encodeFields l.schema values⟩

/-- The values of the fields from an offset on, and the offset after them. -/
def decodeFields (bytes : List UInt8) : Schema → Nat → Except Error (List Value × Nat)
  | [], offset => .ok ([], offset)
  | a :: schema, offset => do
    let (v, next) ← Value.decode a.dataType bytes offset
    let (values, stop) ← decodeFields bytes schema next
    return (v :: values, stop)

/-- The row of a tuple, which may hold nothing after its last field. -/
def decode (l : Layout) (t : Tuple) : Except Error (List Value) := do
  let (values, stop) ← decodeFields t.bytes l.schema 0
  if stop ≠ t.length then throw (.corruptTuple (.trailingBytes (t.length - stop)))
  return values

/-- The offset after fields of the given attributes. -/
def skip (bytes : List UInt8) : Schema → Nat → Except Error Nat
  | [], offset => .ok offset
  | a :: schema, offset => do
    let width ← Value.width a.dataType bytes offset
    skip bytes schema (offset + width)

/-- The offsets at which a field begins and ends. -/
def fieldSpan (l : Layout) (t : Tuple) (i : Nat) : Except Error (Nat × Nat) :=
  match l.schema[i]? with
  | none => .error (.internal (.fieldOutOfBounds i l.schema.length))
  | some a => do
    let start ← skip t.bytes (l.schema.take i) 0
    let width ← Value.width a.dataType t.bytes start
    return (start, start + width)

/-- The value of a field. -/
def field (l : Layout) (t : Tuple) (i : Nat) : Except Error Value :=
  match l.schema[i]? with
  | none => .error (.internal (.fieldOutOfBounds i l.schema.length))
  | some a => do
    let (start, _) ← l.fieldSpan t i
    return (← Value.decode a.dataType t.bytes start).1

/-- The number of bytes of the tuple at the front of some bytes. -/
def encodedLength (l : Layout) (bytes : List UInt8) : Except Error Nat := skip bytes l.schema 0

/-- The bytes of every field from an offset on. -/
def fieldBytes (bytes : List UInt8) : Schema → Nat → Except Error (List (List UInt8))
  | [], _ => .ok []
  | a :: schema, offset => do
    let width ← Value.width a.dataType bytes offset
    return (bytes.drop offset).take width :: (← fieldBytes bytes schema (offset + width))

/-- The bytes of the fields at the given positions, in that order. -/
def select (fields : List (List UInt8)) : List Nat → Except Error (List UInt8)
  | [] => .ok []
  | i :: positions =>
    match fields[i]? with
    | none => .error (.internal (.fieldOutOfBounds i fields.length))
    | some field => do return field ++ (← select fields positions)

/-- The tuple of the fields at the given positions, in that order. -/
def project (l : Layout) (t : Tuple) (positions : List Nat) : Except Error Tuple := do
  let fields ← fieldBytes t.bytes l.schema 0
  let bytes ← select fields positions
  l.checkSize bytes.length
  return ⟨bytes⟩

end Layout

/-- Two tuples as one, unless it is longer than the limit. -/
def Tuple.joinWithin (limit : Nat) (s t : Tuple) : Except Error Tuple :=
  if limit < (s ++ t).length then .error (.tupleTooLarge (s ++ t).length limit) else .ok (s ++ t)

end QueryEngine
