import Mathlib.Data.List.Dedup
import QueryEngine.Proofs.Key.Map
import QueryEngine.Proofs.Key.Order
import QueryEngine.Proofs.Pairs

/-!
# Lists parted by keys

A map that was filled from a list has the keys of its items, each once, so it parts the list, and
it has as many entries as there are different values among the items.

* `KeyMap.flatMap_parts_perm`: the parts, one after the other, are the list in another order.
* `KeyMap.size_eq_of_mem_iff`: how many parts there are.
* `length_pwFilter_compare`: different keys are different values.
-/

namespace QueryEngine

variable {α β : Type}

namespace KeyMap

variable {m : KeyMap α} {list : List β} {key : β → Key}

/-- No key is listed twice. -/
theorem nodup_keys (m : KeyMap α) : (m.entries.map (·.1)).Nodup := by
  refine List.pairwise_map.2 (m.sorted.imp fun {e f} hlt heq => ?_)
  rw [heq] at hlt
  exact Key.lt_irrefl _ hlt

theorem mem_keys_iff {k : Key} : k ∈ m.entries.map (·.1) ↔ ∃ a, m.get? k = some a := by
  simp [get?_eq_some_iff]

theorem flatMap_parts_perm (h : ∀ b ∈ list, key b ∈ m.entries.map (·.1)) :
    (m.entries.flatMap fun e => list.filter (key · = e.1)).Perm list := by
  have hparts := QueryEngine.flatMap_parts_perm key m.nodup_keys h
  rwa [List.flatMap_map] at hparts

theorem size_eq_of_mem_iff (h : ∀ k, k ∈ m.entries.map (·.1) ↔ ∃ b ∈ list, key b = k) :
    m.size = (list.map key).dedup.length := by
  have hperm : (m.entries.map (·.1)).Perm (list.map key).dedup := by
    refine (List.perm_ext_iff_of_nodup m.nodup_keys (List.nodup_dedup _)).2 fun k => ?_
    rw [h, List.mem_dedup, List.mem_map]
  rw [← hperm.length_eq, List.length_map, size]

end KeyMap

theorem pwFilter_congr {r r' : β → β → Prop} [DecidableRel r] [DecidableRel r']
    {list : List β} (h : ∀ x ∈ list, ∀ y ∈ list, r x y ↔ r' x y) :
    list.pwFilter r = list.pwFilter r' := by
  induction list with
  | nil => rfl
  | cons x list ih =>
    have hrest := ih fun y hy z hz => h y (List.mem_cons_of_mem x hy) z (List.mem_cons_of_mem x hz)
    have hx : (∀ y ∈ list.pwFilter r, r x y) ↔ ∀ y ∈ list.pwFilter r', r' x y := by
      rw [hrest]
      refine forall₂_congr fun y hy => h x List.mem_cons_self y (List.mem_cons_of_mem x ?_)
      exact List.pwFilter_subset list hy
    by_cases hr : ∀ y ∈ list.pwFilter r, r x y
    · rw [List.pwFilter_cons_of_pos hr, List.pwFilter_cons_of_pos (hx.1 hr), hrest]
    · rw [List.pwFilter_cons_of_neg hr, List.pwFilter_cons_of_neg (mt hx.2 hr), hrest]

/-- There are as many different values as different keys. -/
theorem length_pwFilter_compare {value : β → Value} {key : β → Key} {keyType : DataType}
    {list : List β} (h : ∀ b ∈ list, Key.typed (value b) keyType = .ok (key b)) :
    ((list.map value).pwFilter fun v w => v.compare w ≠ .ok .eq).length =
      (list.map key).dedup.length := by
  rw [List.dedup, List.pwFilter_map, List.pwFilter_map, List.length_map, List.length_map]
  refine congrArg _ (pwFilter_congr fun b hb c hc => not_congr ?_)
  rw [Key.compare_of_typed (h b hb) (h c hc), Except.ok.injEq, Std.LawfulEqOrd.compare_eq_iff_eq]

end QueryEngine
