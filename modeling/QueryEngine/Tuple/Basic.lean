/-!
# Tuples

A tuple is a row in its encoded form: the bytes of its fields, one after the other, and nothing
else. Joining two tuples is putting their bytes together.
-/

namespace QueryEngine

@[ext] structure Tuple where
  bytes : List UInt8
  deriving DecidableEq, Repr

namespace Tuple

def empty : Tuple := ⟨[]⟩

instance : Inhabited Tuple := ⟨empty⟩

/-- The fields of `s` followed by those of `t`. -/
def append (s t : Tuple) : Tuple := ⟨s.bytes ++ t.bytes⟩

instance : Append Tuple := ⟨append⟩

/-- The number of bytes of the encoded row. -/
def length (t : Tuple) : Nat := t.bytes.length

def isEmpty (t : Tuple) : Bool := t.bytes.isEmpty

@[simp] theorem bytes_append (s t : Tuple) : (s ++ t).bytes = s.bytes ++ t.bytes := rfl

@[simp] theorem length_append (s t : Tuple) : (s ++ t).length = s.length + t.length :=
  List.length_append

end Tuple

end QueryEngine
