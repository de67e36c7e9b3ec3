import QueryEngine.Multimap
import QueryEngine.Proofs.Key.Map
import QueryEngine.Proofs.Outcome

/-!
# What a multimap holds

* `Multimap.insert_of_typed`: what becomes of a multimap when an item is put under a key.
* `Multimap.bucket_insert`: inserting adds an item at the end of what is under its key.
* `Multimap.get_of_typed`: getting is reading that.
-/

namespace QueryEngine.Multimap

variable {α : Type} {m : Multimap α} {v : Value} {k : Key}

/-- The items under a key, in the order in which they were put there. -/
def bucket (m : Multimap α) (k : Key) : List α := ((m.buckets.get? k).getD .empty).toList

@[simp] theorem bucket_empty (t : DataType) (k : Key) : (empty t : Multimap α).bucket k = [] := rfl

theorem insert_of_typed (hk : Key.typed v m.keyType = .ok k) (item : α) :
    m.insert v item = .ok { m with
      buckets := m.buckets.update k fun bucket => (bucket.getD .empty).push item
      size := m.size + 1 } := by
  rw [insert, hk, ok_bind, pure_eq_ok]

theorem bucket_insert (hk : Key.typed v m.keyType = .ok k) (item : α) :
    ∃ m', m.insert v item = .ok m' ∧ m'.keyType = m.keyType ∧
      ∀ l, m'.bucket l = if l = k then m.bucket k ++ [item] else m.bucket l := by
  refine ⟨_, insert_of_typed hk item, rfl, fun l => ?_⟩
  simp only [bucket, KeyMap.get?_update]
  split
  · rw [Option.getD_some, Pile.toList_push]
  · rfl

theorem get_of_typed (hk : Key.typed v m.keyType = .ok k) : m.get v = .ok (m.bucket k) := by
  rw [get, hk, ok_bind, pure_eq_ok, bucket]

end QueryEngine.Multimap
