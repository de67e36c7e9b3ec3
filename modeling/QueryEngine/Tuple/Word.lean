/-!
# Four-byte words

Integers, reals and text lengths are stored as words of four bytes, least significant byte first.
A word is read and written as a natural number, of which four bytes hold the low thirty-two bits.
-/

namespace QueryEngine.Word

/-- The four bytes of the low thirty-two bits of `n`. -/
def bytes (n : Nat) : List UInt8 :=
  [UInt8.ofNat n, UInt8.ofNat (n / 2 ^ 8), UInt8.ofNat (n / 2 ^ 16), UInt8.ofNat (n / 2 ^ 24)]

/-- The number that four bytes stand for. -/
def ofBytes (a b c d : UInt8) : Nat :=
  a.toNat + b.toNat * 2 ^ 8 + c.toNat * 2 ^ 16 + d.toNat * 2 ^ 24

/-- The word at the front of some bytes, if there are as many as four. -/
def read? : List UInt8 → Option Nat
  | a :: b :: c :: d :: _ => some (ofBytes a b c d)
  | _ => none

@[simp] theorem length_bytes (n : Nat) : (bytes n).length = 4 := rfl

theorem ofBytes_lt (a b c d : UInt8) : ofBytes a b c d < 2 ^ 32 := by
  have := a.toNat_lt; have := b.toNat_lt; have := c.toNat_lt; have := d.toNat_lt
  simp only [ofBytes]
  omega

@[simp] theorem read?_bytes_append (n : Nat) (rest : List UInt8) :
    read? (bytes n ++ rest) = some (n % 2 ^ 32) := by
  simp only [bytes, read?, ofBytes, List.cons_append, UInt8.toNat_ofNat', Option.some.injEq]
  omega

theorem bytes_ofBytes (a b c d : UInt8) : bytes (ofBytes a b c d) = [a, b, c, d] := by
  have := a.toNat_lt; have := b.toNat_lt; have := c.toNat_lt; have := d.toNat_lt
  simp only [bytes, List.cons.injEq, and_true, ← UInt8.toNat_inj, UInt8.toNat_ofNat', ofBytes]
  omega

end QueryEngine.Word
