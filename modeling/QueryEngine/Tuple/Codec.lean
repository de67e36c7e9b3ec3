import QueryEngine.Tuple.Word
import QueryEngine.Value.Order

/-!
# The encoding of values

An integer and a real take one word each. Text takes a word with its length and then its bytes.
The type of a value is not stored, so reading needs it.

* `Value.encode`: the bytes of a value.
* `Value.decode`: the value of a given type at an offset, and the offset after it.
* `Value.width`: the number of bytes that value takes, without reading it.
-/

namespace QueryEngine.Value

/-- The bytes of a value. The word before a text holds the low thirty-two bits of its length. -/
def encode : Value → List UInt8
  | integer n => Word.bytes n.toUInt32.toNat
  | real x => Word.bytes x.toBits
  | text bytes => Word.bytes bytes.length ++ bytes

/-- The word at an offset. -/
def readWord (bytes : List UInt8) (offset : Nat) : Except Error Nat :=
  match Word.read? (bytes.drop offset) with
  | some n => .ok n
  | none => .error (.corruptTuple (.wordOverrun offset bytes.length))

/-- The value of type `t` at an offset, and the offset after it. -/
def decode (t : DataType) (bytes : List UInt8) (offset : Nat) : Except Error (Value × Nat) :=
  match readWord bytes offset with
  | .error e => .error e
  | .ok word =>
    match t with
    | .integer => .ok (integer (UInt32.ofNat word).toInt32, offset + 4)
    | .real => .ok (real (.ofBits word), offset + 4)
    | .text =>
      let stop := offset + 4 + word
      if stop ≤ bytes.length then .ok (text ((bytes.drop (offset + 4)).take word), stop)
      else .error (.corruptTuple (.textOverrun word offset bytes.length))

/-- The number of bytes that the value of type `t` at an offset takes. -/
def width (t : DataType) (bytes : List UInt8) (offset : Nat) : Except Error Nat :=
  match t.fixedWidth? with
  | some w =>
    if offset + w ≤ bytes.length then .ok w
    else .error (.corruptTuple (.fieldOverrun offset bytes.length))
  | none =>
    match readWord bytes offset with
    | .error e => .error e
    | .ok word =>
      if offset + 4 + word ≤ bytes.length then .ok (4 + word)
      else .error (.corruptTuple (.textOverrun word offset bytes.length))

@[simp] theorem length_encode (v : Value) : v.encode.length = v.encodedLength := by
  cases v <;> simp [encode, encodedLength]

end QueryEngine.Value
