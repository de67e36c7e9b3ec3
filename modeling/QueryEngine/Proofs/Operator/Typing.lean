import QueryEngine.Proofs.Measure
import QueryEngine.Proofs.Operator.Aggregate
import QueryEngine.Proofs.Operator.BlockJoin
import QueryEngine.Proofs.Operator.Growing
import QueryEngine.Proofs.Operator.IndexJoin
import QueryEngine.Proofs.Operator.KeepingJoins

/-!
# Bound operators and well-formed tuples

Binding checks names and types once, so that operators need not check them for each tuple. What
they compute on well-formed tuples gives well-formed tuples of their own schema, and what it can
still fail with depends on the data alone (`Error.OfData`).

* `Condition.meets_evaluate`, `JoinPredicate.meets_evaluate`: testing tuples.
* `Project.meets_project`, `Aggregate.folds_compute`: making tuples of those of one child.
* `BlockJoin.joins_of_bind`, `IndexJoin.joins_of_bind`, `HashJoin.joins_of_bind`: joining tuples.
-/

namespace QueryEngine

/-- Errors that depend on the data, and not on how operators were put together: a real that is not
finite, a tuple that is too long, and a group too large to be counted. -/
inductive Error.OfData : Error → Prop where
  | nonFiniteReal : OfData .nonFiniteReal
  | tupleTooLarge (size max : Nat) : OfData (.tupleTooLarge size max)
  | countOverflow : OfData (.internal .countOverflow)

variable {may : Error → Prop} {schema left right : Schema} {t l r : Tuple} {config : Config}

theorem Tuple.WellFormed.isRow (h : t.WellFormed schema) : t.IsRow schema :=
  h.imp fun _ h => h.decode

/-! ## Testing tuples -/

theorem Value.meets_compare {v w : Value} (hmay : may .nonFiniteReal)
    (h : v.dataType = w.dataType) : Meets (fun _ => True) may (v.compare w) := by
  cases v <;> cases w <;> simp only [dataType, reduceCtorEq] at h
  · exact trivial
  · simp only [compare]
    split
    · exact trivial
    · exact hmay
  · exact trivial

theorem Key.meets_typed {v : Value} {t : DataType} (hmay : may .nonFiniteReal)
    (h : v.dataType = t) : Meets (fun _ => True) may (Key.typed v t) := by
  refine meets_iff.2 ⟨fun _ _ => trivial, fun e he => ?_⟩
  rcases Key.typed_eq_error_iff.1 he with hne | -
  · exact absurd h hne
  · exact hmay

theorem Condition.meets_evaluate {c : Condition} {p : Predicate} (hmay : may .nonFiniteReal)
    (h : c.bind schema = .ok p) (ht : t.IsRow schema) :
    Meets (fun _ => True) may (p.evaluate t) := by
  obtain ⟨a, ha, hlayout, hc, hright⟩ := c.exists_of_bind h
  obtain ⟨row, hrow⟩ := ht
  obtain ⟨v, -, hv, hav⟩ := Layout.field_of_decode hrow (Schema.getElem?_of_find ha).1
  rw [Predicate.evaluate, hc, hlayout]
  split
  · rename_i hn
    rw [hv, ok_bind]
    rcases hright with ⟨name, j, b, -, hp, hb, htype⟩ | ⟨w, -, hp, htype⟩
    · obtain ⟨w, -, hw, hbw⟩ := Layout.field_of_decode hrow (Schema.getElem?_of_find hb).1
      have htypes : v.dataType = w.dataType := by rw [hav, hbw, htype hn]
      simp only [hp, hw, ok_bind]
      exact (Value.meets_compare hmay htypes).bind fun _ _ => trivial
    · have htypes : v.dataType = w.dataType := by rw [hav, htype hn]
      simp only [hp, pure_eq_ok, ok_bind]
      exact (Value.meets_compare hmay htypes).bind fun _ _ => trivial
  · exact trivial

namespace JoinPredicate

variable {c : Condition} {p : JoinPredicate}

theorem meets_evaluate (hmay : may .nonFiniteReal) (h : c.bindJoin left right = .ok p)
    (hl : l.WellFormed left) (hr : r.WellFormed right) :
    Meets (fun _ => True) may (p.evaluate l r) := by
  obtain ⟨v, hv, htv⟩ := exists_leftValue h hl.isRow
  obtain ⟨w, hw, htw⟩ := exists_rightValue h hr.isRow
  unfold evaluate
  split
  · rename_i hn
    rw [hv, ok_bind, hw, ok_bind]
    exact (Value.meets_compare hmay (htv.trans (htw hn).symm)).bind fun _ _ => trivial
  · exact trivial

/-- What is read from the left is of the type of the key, whatever the tuple is. -/
theorem dataType_of_leftValue {t : Tuple} {v : Value} (h : c.bindJoin left right = .ok p)
    (hv : p.leftValue t = .ok v) : v.dataType = p.keyType := by
  obtain ⟨name, a, b, -, ha, -, -, hleft, -, -, hkey⟩ := c.exists_of_bindJoin h
  rw [leftValue, hleft, Layout.field] at hv
  simp only [(Schema.getElem?_of_find ha).1, bind_eq_ok_iff, pure_eq_ok, Except.ok.injEq] at hv
  obtain ⟨_, -, ⟨w, next⟩, hdecode, rfl⟩ := hv
  rw [Value.dataType_of_decode hdecode, hkey]

theorem meets_leftKey (hmay : may .nonFiniteReal) (h : c.bindJoin left right = .ok p)
    (hl : l.WellFormed left) : Meets (fun _ => True) may (p.leftKey l) := by
  obtain ⟨v, hv, htv⟩ := exists_leftValue h hl.isRow
  rw [leftKey, hv, ok_bind]
  exact Key.meets_typed hmay htv

theorem meets_rightKey (hmay : may .nonFiniteReal) (h : c.bindJoin left right = .ok p)
    (hn : p.comparator.needsValue = true) (hr : r.WellFormed right) :
    Meets (fun _ => True) may (p.rightKey r) := by
  obtain ⟨w, hw, htw⟩ := exists_rightValue h hr.isRow
  rw [rightKey, hw, ok_bind]
  exact Key.meets_typed hmay (htw hn)

end JoinPredicate

/-! ## Projections -/

theorem forall₂_of_mapM_find {names : List String} {found : List (Nat × Attribute)}
    (h : names.mapM schema.find = .ok found) :
    List.Forall₂ (fun i a => schema[i]? = some a) (found.map (·.1)) (found.map (·.2)) := by
  induction names generalizing found with
  | nil =>
    obtain rfl := Except.ok.inj h
    exact .nil
  | cons name names ih =>
    simp only [List.mapM_cons, bind_eq_ok_iff, pure_eq_ok, Except.ok.injEq] at h
    obtain ⟨p, hp, rest, hrest, rfl⟩ := h
    exact .cons (Schema.getElem?_of_find hp).1 (ih hrest)

theorem Project.meets_project {p : Project} {names : List String}
    (hmay : ∀ e : Error, e.OfData → may e) (h : bind schema names config = .ok p)
    (ht : t.WellFormed schema) :
    Meets (fun u => u.WellFormed p.schema ∧ u.length ≤ config.maxTupleSize) may
      (p.layout.project t p.positions) := by
  simp only [bind, throw_eq_error, error_bind, refuse_eq_ok_iff, bind_eq_ok_iff, pure_eq_ok,
    Except.ok.injEq] at h
  obtain ⟨-, found, hfound, rfl⟩ := h
  exact Tuple.WellFormed.project (l := ⟨schema, config.maxTupleSize⟩)
    (fun size max => hmay _ (.tupleTooLarge size max)) ht (forall₂_of_mapM_find hfound)

/-! ## Aggregates -/

namespace Aggregate

variable {a : Aggregate} {name : String} {statistic : Statistic} {groupBy? : Option String}

/-- What an aggregate is once it is bound. -/
theorem eq_of_bind (h : bind schema name statistic groupBy? config = .ok a) :
    ∃ position found group?, schema.find name = .ok (position, found) ∧
      found.dataType.isNumeric = true ∧ groupBy?.mapM schema.find = .ok group? ∧
      a = {
        statistic, position, input := found.dataType
        groupBy := group?.map fun g => (g.1, g.2.dataType)
        childLayout := ⟨schema, config.maxTupleSize⟩
        layout := ⟨(group?.map (·.2)).toList ++ [statisticAttribute statistic found],
          config.maxTupleSize⟩ } := by
  simp only [bind, throw_eq_error, error_bind, refuse_eq_ok_iff, bind_eq_ok_iff, Prod.exists,
    pure_eq_ok, Except.ok.injEq, Bool.not_eq_true', Bool.not_eq_false] at h
  obtain ⟨_, -, position, found, hfound, hnumeric, group?, hgroup?, rfl⟩ := h
  exact ⟨position, found, group?, hfound, hnumeric, hgroup?, rfl⟩

theorem getElem?_of_group {group? : Option (Nat × Attribute)} {i : Nat} {grouping : Attribute}
    (h : groupBy?.mapM schema.find = .ok group?) (hgroup : group? = some (i, grouping)) :
    schema[i]? = some grouping := by
  subst hgroup
  cases groupBy? with
  | none => cases h
  | some name =>
    have hfind : schema.find name = .ok (i, grouping) := by
      cases hf : schema.find name with
      | error e => simp [hf] at h
      | ok p => simpa [hf] using h
    exact (Schema.getElem?_of_find hfind).1

theorem meets_measure (hmay : may .nonFiniteReal) {found : Attribute}
    (hfound : a.childLayout.schema[a.position]? = some found)
    (hnumeric : found.dataType.isNumeric = true) (ht : t.WellFormed a.childLayout.schema) :
    Meets (fun _ => True) may (a.measure t) := by
  obtain ⟨v, hv, hadmits, -⟩ := ht.exists_field hfound
  rw [← hadmits.dataType] at hnumeric
  rw [measure, hv, ok_bind]
  cases v with
  | text bytes => cases hnumeric
  | _ =>
    simp only [Value.measure, Value.toDouble?]
    split
    · exact trivial
    · exact hmay

/-- A statistic of a group that is not empty is a value of its attribute. -/
theorem meets_statistic (hmay : ∀ e : Error, e.OfData → may e) {acc : Accumulator}
    (hcount : 0 < acc.count) (found : Attribute) :
    Meets (fun v => (statisticAttribute statistic found).Admits v ∧ v.encodedLength < 4 + 2 ^ 32)
      may (acc.statistic statistic found.dataType) := by
  have htyped : ∀ x, Meets (fun v =>
      (statisticAttribute statistic found).Admits v ∧ v.encodedLength < 4 + 2 ^ 32) may
      (Accumulator.typed (statistic.outputType found.dataType) x) := by
    intro x
    unfold Accumulator.typed statisticAttribute
    cases statistic.outputType found.dataType with
    | integer => exact Attribute.admits_number rfl (by simp [Value.dataType])
    | _ =>
      simp only
      split
      · exact Attribute.admits_number rfl (by simp [Value.dataType])
      · exact hmay _ .nonFiniteReal
  unfold Accumulator.statistic
  rw [if_neg (Nat.pos_iff_ne_zero.1 hcount)]
  cases statistic with
  | count =>
    simp only
    split
    · exact Attribute.admits_number rfl (by simp [Value.dataType])
    · exact hmay _ .countOverflow
  | _ => exact htyped _

/-- The value that a key stands for fits wherever the value it comes from does. -/
theorem admits_toValue {b : Attribute} {v : Value} {k : Key} {keyType : DataType}
    (h : Key.typed v keyType = .ok k) (hv : b.Admits v) (hshort : v.encodedLength < 4 + 2 ^ 32) :
    b.Admits k.toValue ∧ k.toValue.encodedLength < 4 + 2 ^ 32 := by
  have htype : k.toValue.dataType = b.dataType := by
    rw [← hv.dataType, Key.dataType_of_typed (Key.typed_toValue_of_typed h),
      Key.dataType_of_typed h]
  cases v with
  | integer n =>
    obtain rfl := Except.ok.inj (Key.typed_eq_ok_iff.1 h).2
    exact ⟨hv, hshort⟩
  | text bytes =>
    obtain rfl := Except.ok.inj (Key.typed_eq_ok_iff.1 h).2
    exact ⟨hv, hshort⟩
  | real x =>
    cases k with
    | real y => exact ⟨⟨htype, fun _ h => nomatch h⟩, hshort⟩
    | _ => exact absurd (htype.trans hv.dataType.symm) (by simp [Key.toValue, Value.dataType])

/-- The groups have keys that fit the attribute they are made by, and none is empty. -/
def FitGroups (grouping : Attribute) (groups : Groups Accumulator) : Prop :=
  groups.keyType = grouping.dataType ∧ ∀ e ∈ groups.items.entries,
    grouping.Admits e.1.toValue ∧ e.1.toValue.encodedLength < 4 + 2 ^ 32 ∧ 0 < e.2.count

theorem meets_addGrouped (hmay : may .nonFiniteReal) {found grouping : Attribute} {i : Nat}
    (hfound : a.childLayout.schema[a.position]? = some found)
    (hnumeric : found.dataType.isNumeric = true)
    (hgrouping : a.childLayout.schema[i]? = some grouping) {groups : Groups Accumulator}
    (hgroups : FitGroups grouping groups) (ht : t.WellFormed a.childLayout.schema) :
    Meets (FitGroups grouping) may (a.addGrouped i groups t) := by
  obtain ⟨v, hv, hadmits, hshort⟩ := ht.exists_field hgrouping
  obtain ⟨htype, hentries⟩ := hgroups
  rw [addGrouped, hv, ok_bind]
  refine (meets_measure hmay hfound hnumeric ht).bind fun x _ => ?_
  rw [Groups.update, htype]
  cases hk : Key.typed v grouping.dataType with
  | error e =>
    have := Key.meets_typed hmay hadmits.dataType
    rwa [hk] at this
  | ok k =>
    refine ⟨rfl, fun e he => ?_⟩
    have hget := KeyMap.get?_eq_some_iff.2 he
    rw [KeyMap.get?_update] at hget
    split at hget
    · rename_i hkey
      obtain ⟨hfit, hlength⟩ := admits_toValue hk hadmits hshort
      rw [hkey, ← Option.some.inj hget]
      exact ⟨hfit, hlength, Nat.succ_pos _⟩
    · exact hentries e (KeyMap.get?_eq_some_iff.1 hget)

theorem meets_groupTuple (hmay : ∀ e : Error, e.OfData → may e) {found : Attribute}
    (hinput : a.input = found.dataType) {key : List Value} {keys : Schema}
    (hlayout : a.layout.schema = keys ++ [statisticAttribute a.statistic found])
    (hkeys : List.Forall₂ Attribute.Admits keys key)
    (hshort : ∀ v ∈ key, v.encodedLength < 4 + 2 ^ 32) {acc : Accumulator}
    (hcount : 0 < acc.count) :
    Meets (fun u => u.WellFormed a.layout.schema ∧ u.length ≤ a.layout.maxTupleSize) may
      (a.groupTuple key acc) := by
  rw [groupTuple, hinput]
  refine (meets_statistic hmay hcount found).bind fun v hv => ?_
  refine Layout.meets_encode (fun size max => hmay _ (.tupleTooLarge size max)) ?_ ?_
  · rw [hlayout]
    exact List.rel_append hkeys (.cons hv.1 .nil)
  · intro w hw
    rcases List.mem_append.1 hw with hw | hw
    · exact hshort w hw
    · exact List.mem_singleton.1 hw ▸ hv.2

/-- An aggregate of well-formed tuples gives well-formed tuples. -/
theorem folds_compute {w : Setting} {child : Operator} {c : Contract w child.State}
    {good : Tuple → Prop} (hmay : ∀ e : Error, e.OfData → w.may e)
    (hchild : child.Keeps c good) (hgood : ∀ t, good t → t.WellFormed schema)
    (h : bind schema name statistic groupBy? config = .ok a) {running : Bool} {db : Database}
    {s : child.State} {n : Nat} (hdb : w.changes db db) (hs : c.holds running db s) :
    c.Folds (∀ u ∈ ·, u.WellFormed a.layout.schema ∧ u.length ≤ config.maxTupleSize)
      running db (a.compute child db s n) := by
  obtain ⟨position, found, group?, hfound, hnumeric, hgroup?, rfl⟩ := eq_of_bind h
  have hposition := (Schema.getElem?_of_find hfound).1
  cases group? with
  | none =>
    refine (hchild.pulled.fold (P := fun _ => True) hdb (fun acc t _ ht => ?_) trivial hs n).bind
      fun acc _ => ?_
    · exact (meets_measure (hmay _ .nonFiniteReal) hposition hnumeric (hgood t ht)).bind
        fun _ _ => trivial
    · unfold ungrouped
      split
      · simp
      · rename_i hcount
        refine (meets_groupTuple hmay rfl rfl .nil (fun _ h => absurd h List.not_mem_nil)
          (Nat.pos_of_ne_zero hcount)).bind fun u hu => ?_
        exact fun u' hu' => List.mem_singleton.1 hu' ▸ hu
  | some g =>
    obtain ⟨i, grouping⟩ := g
    have hgrouping := getElem?_of_group hgroup? rfl
    refine (hchild.pulled.fold (P := FitGroups grouping) hdb (fun groups t hgroups ht => ?_)
      ⟨rfl, fun _ h => absurd h List.not_mem_nil⟩ hs n).bind fun groups hgroups => ?_
    · exact meets_addGrouped (hmay _ .nonFiniteReal) hposition hnumeric hgrouping hgroups
        (hgood t ht)
    · refine Meets.mapM fun g hg => ?_
      obtain ⟨e, he, rfl⟩ := List.mem_map.1 hg
      obtain ⟨hadmits, hlength, hcount⟩ := hgroups.2 e he
      exact meets_groupTuple hmay rfl rfl (.cons hadmits .nil)
        (fun v hv => List.mem_singleton.1 hv ▸ hlength) hcount

end Aggregate

/-! ## Joins -/

/-- A join of two well-formed tuples, unless it is too long. -/
theorem meets_joinWithin (hmay : ∀ e : Error, e.OfData → may e) (hl : l.WellFormed left)
    (hr : r.WellFormed right) (limit : Nat) :
    Meets (fun t => t.WellFormed (left ++ right) ∧ t.length ≤ limit) may (l.joinWithin limit r) :=
  hl.joinWithin (fun size max => hmay _ (.tupleTooLarge size max)) hr limit

theorem BlockJoin.joins_of_bind {join : BlockJoin} {scan : TableScan} {condition : Condition}
    {pages : Nat} {w : Setting} (hmay : ∀ e : Error, e.OfData → w.may e)
    (h : bind left scan condition pages config = .ok join) :
    join.Joins w (·.WellFormed left) (·.WellFormed scan.schema)
      fun t => t.WellFormed join.schema ∧ t.length ≤ config.maxTupleSize := by
  simp only [bind, bind_eq_ok_iff, throw_eq_error, error_bind, refuse_eq_ok_iff, pure_eq_ok,
    Except.ok.injEq] at h
  obtain ⟨_, -, -, p, hp, rfl⟩ := h
  exact ⟨fun l r hl hr => JoinPredicate.meets_evaluate (hmay _ .nonFiniteReal) hp hl hr,
    fun l r hl hr => meets_joinWithin hmay hl hr _⟩

/-- The ranges of a value have no bounds but that value. -/
theorem Comparator.bounds_of_mem_lookupRanges {c : Comparator} {v : Value} {range : KeyRange}
    (h : range ∈ c.lookupRanges v) :
    (∀ w, range.low = some w → w = v) ∧ ∀ w, range.high = some w → w = v := by
  cases c <;> simp only [lookupRanges, List.mem_cons, List.not_mem_nil, or_false] at h
  case ne => rcases h with rfl | rfl <;> simp [KeyRange.above, KeyRange.below, eq_comm]
  all_goals
    subst h
    simp [KeyRange.point, KeyRange.above, KeyRange.below, KeyRange.all, eq_comm]

/-- The bounds of the range are of the type of the index, though they need not be finite. -/
def IndexScan.Asked (scan : IndexScan) (range : KeyRange) : Prop :=
  Meets (fun _ => True) (· = .nonFiniteReal) (range.interval? scan.keyType)

namespace IndexJoin

variable {join : IndexJoin} {base : Store} {refuses : Error → Prop} {table column : String}
  {alias? : Option String} {condition : Condition}

/-- Left values are of the type of the index. -/
theorem keyType_eq (hscan : IndexScan.bind base table column alias? = .ok join.right)
    (h : bind left join.right condition config = .ok join)
    (hn : join.predicate.comparator.needsValue = true) :
    join.predicate.keyType = join.right.keyType := by
  obtain ⟨hp, hcolumn, -, -⟩ := exists_of_bind h
  obtain ⟨t, position, found, -, hfound, heq⟩ := IndexScan.exists_of_bind hscan
  obtain ⟨name, a, b, hname, -, hb, hab, -, -, hc, hkey⟩ := condition.exists_of_bindJoin hp
  obtain rfl : name = join.right.indexed.name := Operand.column.inj (hname.symm.trans hcolumn)
  obtain ⟨-, hfoundName⟩ := Schema.getElem?_of_find hfound
  rw [heq, Schema.find_eq_ok_iff, Schema.find?_qualified, hfoundName,
    Schema.find_eq_ok_iff.1 hfound, Option.map_some, Option.some.injEq, Prod.mk.injEq] at hb
  rw [hkey, hab (hc ▸ hn), ← hb.2, heq]
  rfl

/-- Whatever is looked up has bounds of the type of the index. -/
theorem asked_of_rangesOf (hscan : IndexScan.bind base table column alias? = .ok join.right)
    (h : bind left join.right condition config = .ok join) {ranges : List KeyRange}
    (hranges : join.rangesOf t = .ok ranges) : ∀ range ∈ ranges, join.right.Asked range := by
  intro range hrange
  unfold rangesOf at hranges
  split at hranges
  · rename_i hn
    obtain ⟨v, hv, hranges⟩ := bind_eq_ok_iff.1 hranges
    have htype := (JoinPredicate.dataType_of_leftValue (exists_of_bind h).1 hv).trans
      (keyType_eq hscan h hn)
    obtain rfl := Except.ok.inj hranges
    obtain ⟨hlow, hhigh⟩ := Comparator.bounds_of_mem_lookupRanges hrange
    have hfinite : ∀ e, v.Misfit join.right.keyType e → e = .nonFiniteReal := by
      rintro e (hne | -)
      · exact absurd htype hne
      · rfl
    refine meets_iff.2 ⟨fun _ _ => trivial, fun e he => ?_⟩
    rcases KeyRange.interval?_eq_error_iff.1 he with ⟨w, hw, hmisfit⟩ | ⟨-, w, hw, hmisfit⟩
    · exact hfinite e (hlow w hw ▸ hmisfit)
    · exact hfinite e (hhigh w hw ▸ hmisfit)
  · obtain rfl := Except.ok.inj hranges
    obtain rfl := List.mem_singleton.1 hrange
    exact trivial

theorem meets_rangesOf (hscan : IndexScan.bind base table column alias? = .ok join.right)
    (h : bind left join.right condition config = .ok join) (ht : t.WellFormed left) :
    Meets (∀ range ∈ ·, join.right.Asked range) may (join.rangesOf t) := by
  obtain ⟨v, hv, -⟩ := JoinPredicate.exists_leftValue (exists_of_bind h).1 ht.isRow
  refine meets_iff.2 ⟨fun _ hranges => asked_of_rangesOf hscan h hranges, fun e he => ?_⟩
  unfold rangesOf at he
  rw [hv, ok_bind] at he
  split at he <;> cases he

theorem joins_of_bind (hbase : base.Reachable) (hmax : base.maxTupleSize < 2 ^ 32)
    (hmay : ∀ e : Error, e.OfData → may e)
    (hscan : IndexScan.bind base table column alias? = .ok join.right)
    (h : bind left join.right condition config = .ok join) :
    join.Joins (w := .growing base may refuses) (IndexScan.source hbase hmax hscan)
      (·.WellFormed left) (fun t => t.WellFormed join.schema ∧ t.length ≤ config.maxTupleSize)
      join.right.Asked where
  rangesOf t ht := meets_rangesOf hscan h ht
  indexScan {db range} hdb hasked hindexed := by
    obtain ⟨t, index, ht, hindex⟩ := hindexed
    have htype := IndexScan.keyType_eq hbase hdb.1 hscan ht hindex
    refine meets_iff.2 ⟨fun _ _ => trivial, fun e he => ?_⟩
    rw [Store.indexScan, ht, ok_bind, hindex, Index.scan_eq_error_iff, htype] at he
    rw [IndexScan.Asked, he] at hasked
    exact hasked ▸ hmay _ .nonFiniteReal
  joinWithin l r hl hr := by
    simp only [bind, bind_eq_ok_iff, throw_eq_error, error_bind, refuse_eq_ok_iff, pure_eq_ok,
      Except.ok.injEq] at h
    obtain ⟨_, -, _, -, -, heq⟩ := h
    have hmeets := meets_joinWithin hmay hl hr config.maxTupleSize
    rw [← heq]
    exact hmeets

end IndexJoin

theorem HashJoin.schema_of_bind {join : HashJoin} {condition : Condition} {partitions : Nat}
    {route : Key → Nat} (h : bind left right condition partitions route config = .ok join) :
    join.schema = left ++ right := by
  unfold bind at h
  simp only [bind_eq_ok_iff, throw_eq_error, error_bind, refuse_eq_ok_iff, pure_eq_ok] at h
  obtain ⟨_, -, -, h⟩ := h
  split at h
  · simp at h
  · split at h
    · simp at h
    · simp only [bind_eq_ok_iff, Except.ok.injEq] at h
      obtain ⟨p, -, rfl⟩ := h
      rfl

theorem HashJoin.joins_of_bind {join : HashJoin} {condition : Condition} {partitions : Nat}
    {route : Key → Nat} {w : Setting} (hmay : ∀ e : Error, e.OfData → w.may e)
    (h : bind left right condition partitions route config = .ok join) :
    join.Joins w (fun | .left => (·.WellFormed left) | .right => (·.WellFormed right))
      fun t => t.WellFormed join.schema ∧ t.length ≤ config.maxTupleSize := by
  obtain ⟨hp, hc, -, hsize⟩ := exists_of_bind h
  have hschema : join.schema = left ++ right := schema_of_bind h
  constructor
  · intro side t ht
    cases side with
    | left => exact JoinPredicate.meets_leftKey (hmay _ .nonFiniteReal) hp ht
    | right => exact JoinPredicate.meets_rightKey (hmay _ .nonFiniteReal) hp (by rw [hc]; rfl) ht
  · exact fun t _ => hmay _ (.tupleTooLarge _ _)
  · intro l r hl hr
    rw [hschema, hsize]
    exact meets_joinWithin hmay hl hr _

end QueryEngine
