import QueryEngine.Spill
import QueryEngine.Tuple.Layout

/-!
# Configurations of operators

The limits that operators are built with, and where a join sets tuples aside.
-/

namespace QueryEngine

/-- What an operator is allowed to hold and to make. -/
structure Config where
  /-- The bytes of one page of a block. -/
  pageSize : Nat := 4096
  /-- The longest tuple that an operator makes. -/
  maxTupleSize : Nat := defaultMaxTupleSize
  medium : Spill.Medium := .disk
  deriving DecidableEq, Repr

namespace Config

/-- The configuration that keeps everything in memory. -/
def inMemory : Config := { medium := .memory }

/-- Refuses sizes of zero. -/
def validate (c : Config) : Except Error Unit :=
  if c.pageSize = 0 then .error (.invalidArgument .zeroPageSize)
  else if c.maxTupleSize = 0 then .error (.invalidArgument .zeroTupleSize)
  else .ok ()

end Config

end QueryEngine
