import QueryEngine.Proofs.Operator.Projection

/-!
# Selection and projection commute

A filter over a projection finds the fields of its condition where the projection has put them, and
a filter under it finds them where the child has them. The positions differ, and so do the bytes
that are read. But under a name both find the first attribute with it, and the first copy of a field
holds what the field does, so both judge a row and what is made of it alike.

* `Project.exists_find_of_bind`: a name that is asked for, before a projection and after it.
* `Project.judgeTuple_eq`: a condition on such names, before and after.
* `Project.sift_remake`: sifting what was made, or making it of what was sifted.
* `Project.outcome_filter_comm`: the two plans.
-/

namespace QueryEngine

/-! ## Names -/

namespace Schema

variable {schema : Schema} {name : String}

theorem exists_find (h : ∃ a ∈ schema, a.name = name) : ∃ found, schema.find name = .ok found := by
  simp only [Prod.exists, find_eq_ok_iff]
  induction schema with
  | nil => simp at h
  | cons b schema ih =>
    rw [find?]
    split
    · exact ⟨0, b, rfl⟩
    · rename_i hb
      obtain ⟨a, ha, hname⟩ := h
      have hrest : a ∈ schema := (List.mem_cons.1 ha).resolve_left fun hab => hb (hab ▸ hname)
      obtain ⟨i, c, hfound⟩ := ih ⟨a, hrest, hname⟩
      exact ⟨i + 1, c, by rw [hfound]; rfl⟩

/-- Under a name, the same attribute is found among those that some names have found. The first
that has the name is the one found for it. -/
theorem exists_find_of_mapM {names : List String} {found : List (Nat × Attribute)}
    (hfound : names.mapM schema.find = .ok found) (hname : name ∈ names) :
    ∃ i k a, schema.find name = .ok (i, a) ∧ Schema.find (found.map (·.2)) name = .ok (k, a) ∧
      (found.map (·.1))[k]? = some i := by
  simp only [find_eq_ok_iff]
  induction names generalizing found with
  | nil => cases hname
  | cons first names ih =>
    simp only [List.mapM_cons, bind_eq_ok_iff, pure_eq_ok, Except.ok.injEq] at hfound
    obtain ⟨⟨i, a⟩, ha, rest, hrest, rfl⟩ := hfound
    have hfirst : a.name = first := (getElem?_of_find ha).2
    simp only [List.map_cons, find?]
    by_cases h : first = name
    · subst h
      exact ⟨i, 0, a, find_eq_ok_iff.1 ha, by rw [if_pos hfirst], rfl⟩
    · have hmem : name ∈ names := (List.mem_cons.1 hname).resolve_left (Ne.symm h)
      obtain ⟨j, k, b, hb, hagain, hk⟩ := ih hrest hmem
      exact ⟨j, k + 1, b, hb, by rw [if_neg (hfirst ▸ h), hagain]; rfl, hk⟩

end Schema

namespace Condition

variable {c : Condition} {schema schema' : Schema}

/-- The names of attributes that a condition is on. -/
def names (c : Condition) : List String := c.left :: c.rightAttribute?.toList

/-- If two schemas have the same attributes under the names of a condition, it can be bound to both
or fails for both in the same error. -/
theorem bind_or_error (h : ∀ name ∈ c.names, ∃ i j a, schema.find name = .ok (i, a) ∧
      schema'.find name = .ok (j, a)) :
    (∃ e, c.bind schema = .error e ∧ c.bind schema' = .error e) ∨
      ∃ p q, c.bind schema = .ok p ∧ c.bind schema' = .ok q := by
  obtain ⟨i, j, a, hi, hj⟩ := h c.left List.mem_cons_self
  cases hright : c.right with
  | literal v =>
    simp only [bind, hi, hj, hright, ok_bind]
    cases c.checkTypes a.dataType v.dataType with
    | error e => exact .inl ⟨e, rfl, rfl⟩
    | ok _ => exact .inr ⟨_, _, rfl, rfl⟩
  | column name =>
    obtain ⟨i', j', b, hi', hj'⟩ := h name (by simp [names, rightAttribute?, hright])
    simp only [bind, hi, hj, hright, hi', hj', ok_bind]
    cases c.checkTypes a.dataType b.dataType with
    | error e => exact .inl ⟨e, rfl, rfl⟩
    | ok _ => exact .inr ⟨_, _, rfl, rfl⟩

end Condition

/-! ## Tuples -/

namespace Project

variable {p : Project} {input : Schema} {names : List String} {config : Config} {name : String}
  {c : Condition} {row : List Value} {t u : Tuple}

theorem exists_bind (hne : names ≠ []) (h : ∀ name ∈ names, ∃ a ∈ input, a.name = name)
    (config : Config) : ∃ p, bind input names config = .ok p := by
  obtain ⟨found, hfound⟩ := exists_mapM fun name hname => Schema.exists_find (h name hname)
  refine ⟨⟨⟨input, config.maxTupleSize⟩, found.map (·.1), found.map (·.2)⟩, ?_⟩
  simp only [bind, List.isEmpty_iff, hne, if_false, hfound, ok_bind, pure_eq_ok]

/-- Under a name that was asked for, the same attribute is found before and after, and it comes
from where it was found before. -/
theorem exists_find_of_bind (h : bind input names config = .ok p) (hname : name ∈ names) :
    ∃ i k a, input.find name = .ok (i, a) ∧ p.schema.find name = .ok (k, a) ∧
      p.positions[k]? = some i := by
  obtain ⟨-, found, hfound, rfl⟩ := eq_of_bind h
  exact Schema.exists_find_of_mapM hfound hname

theorem value_eq (h : bind input names config = .ok p) (hrow : row.length = input.length)
    (hname : name ∈ names) :
    (Operand.column name).value ((p.schema.map (·.name)).zip (itemsAt row p.positions)) =
      (Operand.column name).value ((input.map (·.name)).zip row) := by
  obtain ⟨hin, hschema⟩ := schema_of_bind h
  have hlength : (itemsAt row p.positions).length = p.schema.length := by
    rw [hschema, length_itemsAt hin, length_itemsAt (hrow.symm ▸ hin)]
  obtain ⟨i, k, a, hi, hk, hposition⟩ := exists_find_of_bind h hname
  simp only [Operand.value, Schema.lookup_eq hlength (Schema.find_eq_ok_iff.1 hk),
    Schema.lookup_eq hrow (Schema.find_eq_ok_iff.1 hi), getElem?_itemsAt (hrow.symm ▸ hin),
    hposition, Option.bind_some]

/-- A condition on names that are kept says the same of a row before and after. -/
theorem judge_eq (h : bind input names config = .ok p) (hrow : row.length = input.length)
    (hc : ∀ name ∈ c.names, name ∈ names) :
    c.judge ((p.schema.map (·.name)).zip (itemsAt row p.positions)) =
      c.judge ((input.map (·.name)).zip row) := by
  have hleft := value_eq h hrow (hc c.left List.mem_cons_self)
  cases hright : c.right with
  | literal v =>
    simp only [Condition.judge, hleft, hright]
    rfl
  | column name =>
    have hname : name ∈ c.names := by simp [Condition.names, Condition.rightAttribute?, hright]
    simp only [Condition.judge, hleft, hright, value_eq h hrow (hc name hname)]

/-- What a projection makes of `t` is not too long. -/
def Fits (p : Project) (t : Tuple) : Prop :=
  ∀ row, p.layout.decode t = .ok row →
    Layout.rowLength (itemsAt row p.positions) ≤ p.layout.maxTupleSize

/-- Of a tuple that holds a row, a tuple is made of which the condition says the same. -/
theorem judgeTuple_eq (h : bind input names config = .ok p) (ht : t.IsRow input) (hfits : p.Fits t)
    (hc : ∀ name ∈ c.names, name ∈ names) :
    ∃ u, p.layout.project t p.positions = .ok u ∧ u.IsRow p.schema ∧
      c.judgeTuple p.schema u = c.judgeTuple input t := by
  obtain ⟨row, hrow⟩ := ht
  obtain ⟨hin, hschema⟩ := schema_of_bind h
  obtain rfl : input = p.layout.schema := by
    obtain ⟨-, found, -, rfl⟩ := eq_of_bind h
    rfl
  have hlength := Layout.length_of_decodeFields (Layout.decodeFields_of_decode hrow)
  have hdecode : p.layout.decode t = .ok row := hrow
  obtain ⟨u, hu⟩ := (Layout.projects hdecode hin).made_iff.2 (hfits row hdecode)
  have hmade : ({ schema := p.schema } : Layout).decode u = .ok (itemsAt row p.positions) := by
    rw [hschema]
    exact Layout.decode_of_project hdecode hin hu
  refine ⟨u, hu, ⟨_, hmade⟩, ?_⟩
  rw [Condition.judgeTuple, Condition.judgeTuple, hmade, hrow, ok_bind, ok_bind]
  exact judge_eq h hlength hc

/-! ## Streams -/

/-- If something is made of every tuple, and a test says of it what another says of the tuple, then
what was made can be sifted as well as what it is made of. -/
theorem sift_remake {make : Tuple → Except Error Tuple} {test test' : Tuple → Except Error Bool}
    (stop : Option Error) {tuples : List Tuple}
    (h : ∀ t ∈ tuples, ∃ u, make t = .ok u ∧ test' u = test t) :
    Filter.sift test' (remake make stop tuples).2 (remake make stop tuples).1 =
      remake make (Filter.sift test stop tuples).2 (Filter.sift test stop tuples).1 := by
  induction tuples with
  | nil => rfl
  | cons t tuples ih =>
    obtain ⟨⟨u, hu, htest⟩, hrest⟩ := List.forall_mem_cons.1 h
    rw [remake, hu, Filter.sift, Filter.sift, htest]
    cases htested : test t with
    | error e => rfl
    | ok passed =>
      cases passed with
      | false => exact ih hrest
      | true => simp only [ih hrest, remake, hu]

/-- A filter over a projection, by what comes of the child. -/
theorem outcome_filter_over (f : Filter) (p : Project) (child : Operator) {db : Database}
    (s : (f.operator (p.operator child)).State) (n : Nat) :
    (f.operator (p.operator child)).outcome db s n =
      let made := remake (p.layout.project · p.positions)
        (child.outcome db s.body.child.body n).2 (child.outcome db s.body.child.body n).1
      Filter.sift f.predicate.evaluate made.2 made.1 := by
  rw [Filter.outcome_eq_sift, outcome_eq_remake]

/-- A projection of a filter, by what comes of the child. -/
theorem outcome_filter_under (f : Filter) (p : Project) (child : Operator) {db : Database}
    (s : (p.operator (f.operator child)).State) (n : Nat) :
    (p.operator (f.operator child)).outcome db s n =
      let passed := Filter.sift f.predicate.evaluate
        (child.outcome db s.body.body.child n).2 (child.outcome db s.body.body.child n).1
      remake (p.layout.project · p.positions) passed.2 passed.1 := by
  have hpassed : (f.operator child).outcome db s.body n = _ := f.outcome_eq_sift child s.body n
  rw [outcome_eq_remake, hpassed]

/-- **Selection and projection commute**: a filter over a projection gives what a projection of a
filter gives, and stops where it stops, if the condition is on names that are kept. -/
theorem outcome_filter_comm {child : Operator} {names : List String} {condition : Condition}
    (config : Config) (hne : names ≠ [])
    (hnames : ∀ name ∈ names, ∃ a ∈ child.schema, a.name = name)
    (hcondition : ∀ name ∈ condition.names, name ∈ names) :
    ∃ p, bind child.schema names config = .ok p ∧
      ((∃ e, Filter.bind child.schema condition = .error e ∧
          Filter.bind (p.operator child).schema condition = .error e) ∨
        ∃ f g, Filter.bind child.schema condition = .ok f ∧
          Filter.bind (p.operator child).schema condition = .ok g ∧
          bind (f.operator child).schema names config = .ok p ∧
          ∀ db n (s : (g.operator (p.operator child)).State)
            (s' : (p.operator (f.operator child)).State),
            s.body.child.body = s'.body.body.child →
            (∀ t ∈ (child.outcome db s'.body.body.child n).1, t.IsRow child.schema ∧ p.Fits t) →
            (g.operator (p.operator child)).outcome db s n =
              (p.operator (f.operator child)).outcome db s' n) := by
  obtain ⟨p, hp⟩ := exists_bind hne hnames config
  refine ⟨p, hp, ?_⟩
  have hschema : (p.operator child).schema = p.schema := rfl
  have hfound : ∀ name ∈ condition.names, ∃ i j a, child.schema.find name = .ok (i, a) ∧
      p.schema.find name = .ok (j, a) := by
    intro name hname
    obtain ⟨i, k, a, hi, hk, -⟩ := exists_find_of_bind hp (hcondition name hname)
    exact ⟨i, k, a, hi, hk⟩
  rcases Condition.bind_or_error hfound with ⟨e, hunder, hover⟩ | ⟨q, q', hunder, hover⟩
  · left
    refine ⟨e, ?_, ?_⟩
    · rw [Filter.bind, hunder, error_bind]
    · rw [hschema, Filter.bind, hover, error_bind]
  · right
    refine ⟨⟨condition, q⟩, ⟨condition, q'⟩, ?_, ?_, hp, ?_⟩
    · rw [Filter.bind, hunder, ok_bind, pure_eq_ok]
    · rw [hschema, Filter.bind, hover, ok_bind, pure_eq_ok]
    intro db n s s' hbody htuples
    rw [outcome_filter_over, outcome_filter_under, hbody]
    refine sift_remake _ fun t ht => ?_
    obtain ⟨hrow, hfits⟩ := htuples t ht
    obtain ⟨u, hu, hurow, hjudge⟩ := judgeTuple_eq hp hrow hfits hcondition
    refine ⟨u, hu, ?_⟩
    rw [condition.evaluate_eq hover hurow, hjudge, condition.evaluate_eq hunder hrow]

/-- Texts with two reals of one name, of which the first is compared with 2 and the second is left
out. Of the three tuples the last cannot be judged. -/
theorem outcome_filter_comm_reals :
    let schema : Schema := [.text "s" 4, .real "a", .real "a"]
    let tuples : List Tuple :=
      [⟨[1, 0, 0, 0, 65, 0, 0, 64, 64, 0, 0, 192, 127]⟩,
        ⟨[0, 0, 0, 0, 0, 0, 128, 63, 0, 0, 64, 64]⟩,
        ⟨[1, 0, 0, 0, 66, 0, 0, 192, 127, 0, 0, 64, 64]⟩]
    let child := Materialized.operator ⟨schema, tuples⟩
    let condition : Condition := ⟨"a", .gt, .literal (.real (.ofBits 0x40000000))⟩
    let p : Project := ⟨⟨schema, 4096⟩, [1, 0, 1], [.real "a", .text "s" 4, .real "a"]⟩
    let f : Filter := ⟨condition, ⟨{ schema }, 1, .gt, .literal (.real (.ofBits 0x40000000))⟩⟩
    let g : Filter :=
      ⟨condition, ⟨{ schema := p.schema }, 0, .gt, .literal (.real (.ofBits 0x40000000))⟩⟩
    bind schema ["a", "s", "a"] {} = .ok p ∧ Filter.bind schema condition = .ok f ∧
      Filter.bind p.schema condition = .ok g ∧ (∀ t ∈ tuples, t.IsRow schema ∧ p.Fits t) ∧
      (g.operator (p.operator child)).outcome {} (g.operator (p.operator child)).initial 0 =
        (p.operator (f.operator child)).outcome {} (p.operator (f.operator child)).initial 0 ∧
      (p.operator (f.operator child)).outcome {} (p.operator (f.operator child)).initial 0 =
        ([⟨[0, 0, 64, 64, 1, 0, 0, 0, 65, 0, 0, 64, 64]⟩], some .nonFiniteReal) := by
  intro schema tuples child condition p f g
  have hp : bind schema ["a", "s", "a"] {} = .ok p := rfl
  have hf : Filter.bind schema condition = .ok f := rfl
  have hg : Filter.bind p.schema condition = .ok g := rfl
  have hrows : ∀ t ∈ tuples, ∃ row, p.layout.decode t = .ok row ∧
      Layout.rowLength (itemsAt row p.positions) ≤ 4096 := by
    simp only [tuples, List.forall_mem_cons, List.not_mem_nil, false_implies, implies_true,
      and_true]
    exact ⟨
      ⟨[.text [65], .real (.ofBits 0x40400000), .real (.ofBits 0x7fc00000)], by decide, by decide⟩,
      ⟨[.text [], .real (.ofBits 0x3f800000), .real (.ofBits 0x40400000)], by decide, by decide⟩,
      ⟨[.text [66], .real (.ofBits 0x7fc00000), .real (.ofBits 0x40400000)], by decide, by decide⟩⟩
  have htuples : ∀ t ∈ tuples, t.IsRow schema ∧ p.Fits t := by
    intro t ht
    obtain ⟨row, hrow, hsize⟩ := hrows t ht
    refine ⟨⟨row, hrow⟩, fun row' hrow' => ?_⟩
    obtain rfl : row = row' := Except.ok.inj (hrow.symm.trans hrow')
    exact hsize
  have hnames : ∀ name ∈ ["a", "s", "a"], ∃ a ∈ child.schema, a.name = name := by decide
  have hcondition : ∀ name ∈ condition.names, name ∈ ["a", "s", "a"] := by decide
  have houtcome : child.outcome {} child.initial 0 = (tuples, none) :=
    (Materialized.yields ⟨schema, tuples⟩ {} tuples).results_eq 0
  have hunder : (p.operator (f.operator child)).outcome {}
      (p.operator (f.operator child)).initial 0 =
      let passed := Filter.sift f.predicate.evaluate (child.outcome {} child.initial 0).2
        (child.outcome {} child.initial 0).1
      remake (p.layout.project · p.positions) passed.2 passed.1 :=
    outcome_filter_under f p child (p.operator (f.operator child)).initial 0
  refine ⟨hp, hf, hg, htuples, ?_, ?_⟩
  · obtain ⟨_, hp', ⟨e, he, -⟩ | ⟨_, _, hf', hg', -, hcomm⟩⟩ :=
      outcome_filter_comm {} (by decide) hnames hcondition
    · exact nomatch he.symm.trans hf
    · obtain rfl := Except.ok.inj (hp.symm.trans hp')
      obtain rfl := Except.ok.inj (hf.symm.trans hf')
      obtain rfl := Except.ok.inj (hg.symm.trans hg')
      refine hcomm {} 0 _ _ rfl fun t ht => htuples t ?_
      change t ∈ (child.outcome {} child.initial 0).1 at ht
      rwa [houtcome] at ht
  · rw [hunder, houtcome]
    rfl

end Project

end QueryEngine
