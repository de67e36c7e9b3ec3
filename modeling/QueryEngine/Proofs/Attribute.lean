import QueryEngine.Attribute

/-!
# Names in schemas

* `Schema.getElem?_of_find`: what is found under a name.
* `Schema.find?_qualified`: qualifying all names by one relation leaves each attribute where it is.
-/

namespace QueryEngine

theorem Attribute.qualified_name_inj {a b : Attribute} {relation : String} :
    (a.qualified relation).name = (b.qualified relation).name ↔ a.name = b.name := by
  have happend : ∀ c : Attribute, (c.qualified relation).name = relation ++ "." ++ c.name :=
    fun _ => rfl
  rw [happend, happend, String.append_right_inj]

namespace Schema

variable {schema : Schema} {name : String} {i : Nat} {a : Attribute}

theorem find_eq_ok_iff : schema.find name = .ok (i, a) ↔ schema.find? name = some (i, a) := by
  unfold find
  cases schema.find? name <;> simp

theorem getElem?_of_find (h : schema.find name = .ok (i, a)) :
    schema[i]? = some a ∧ a.name = name :=
  find?_eq_some (find_eq_ok_iff.1 h)

/-- Qualifying all names leaves each attribute where it is. -/
theorem find?_qualified (schema : Schema) (b : Attribute) (relation : String) :
    (schema.qualified relation).find? (b.qualified relation).name =
      (schema.find? b.name).map fun p => (p.1, p.2.qualified relation) := by
  induction schema with
  | nil => rfl
  | cons a schema ih =>
    rw [qualified, List.map_cons, find?, find?]
    by_cases h : a.name = b.name
    · rw [if_pos (Attribute.qualified_name_inj.2 h), if_pos h]
      rfl
    · rw [if_neg fun hq => h (Attribute.qualified_name_inj.1 hq), if_neg h]
      rw [qualified] at ih
      rw [ih, Option.map_map, Option.map_map]
      rfl

end Schema

end QueryEngine
