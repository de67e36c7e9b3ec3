import QueryEngine.Key.Basic

/-!
# Partitions of keys

A join spreads its tuples over partitions so that equal keys meet. A hash of the key says where it
goes. Any function will do for the hash, as equal keys have equal hashes under all of them.
-/

namespace QueryEngine.Key

/-- The partition of a key among `partitions` of them. -/
def partition (hash : Key → UInt64) (k : Key) (partitions : Nat) : Nat :=
  (hash k).toNat % max partitions 1

theorem partition_lt (hash : Key → UInt64) (k : Key) (partitions : Nat) :
    k.partition hash partitions < max partitions 1 :=
  Nat.mod_lt _ (by omega)

end QueryEngine.Key
