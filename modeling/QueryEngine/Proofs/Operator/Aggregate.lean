import Mathlib.Algebra.BigOperators.Ring.Finset
import Mathlib.Data.List.Forall2
import Mathlib.Tactic.Choose
import QueryEngine.Operator.Aggregate
import QueryEngine.Proofs.Attribute
import QueryEngine.Proofs.Measure
import QueryEngine.Proofs.Key.Parts
import QueryEngine.Proofs.Operator.Stream
import QueryEngine.Proofs.Tuple.Layout

/-!
# What an aggregate yields

An aggregate by groups goes through the tuples once and keeps all groups at the same time. It comes
to the same as going through the tuples of each group by themselves.

* `Aggregate.Emits`, `Aggregate.Refuses`: what an aggregate makes of some tuples, whatever child
  they come from.
* `Aggregate.items`: what is kept for the groups, made of the tuples of each.
* `Aggregate.Grouping`: tuples in groups, by equal values and in the order of these.
* `Aggregate.output_grouped`, `Aggregate.emits_total`: what an aggregate yields by groups, and
  without them.
-/

namespace QueryEngine

namespace Aggregate

variable {a : Aggregate} {child : Operator} {db : Database} {tuples rows : List Tuple}

/-! ## Pulling -/

/-- What is yielded for the tuples of a child. -/
def output (a : Aggregate) (tuples : List Tuple) : Except Error (List Tuple) :=
  match a.groupBy with
  | none => (tuples.foldlM a.add .empty).bind a.ungrouped
  | some (position, keyType) =>
    (tuples.foldlM (a.addGrouped position) (.empty keyType)).bind a.grouped

theorem compute_fst {c : child.State} (h : child.Yields db none c tuples) (n : Nat) :
    (a.compute child db c n).1 = a.output tuples := by
  cases hgroup : a.groupBy <;> simp only [compute, output, hgroup, h.fold_fst]

/-- An aggregate makes `rows` of `tuples`, whatever child yields them. -/
def Emits (a : Aggregate) (tuples rows : List Tuple) : Prop :=
  ∀ (child : Operator) (db : Database) (s : (a.operator child).State) (c : child.State),
    child.start db s.body.child = (.ok (), c) → child.Yields db none c tuples →
      ∃ s', (a.operator child).start db s = (.ok (), s') ∧
        (a.operator child).Yields db none s' rows

theorem follows_output (c : child.State) (rows : List Tuple) :
    (a.machine child).Course db (fun _ => (none : Option Unit)) ⟨c, some rows⟩ [] rows none := by
  induction rows with
  | nil => exact .of_ending fun n => ⟨_, n, rfl⟩
  | cons t rows ih => exact .of_emit fun n => ⟨_, n, rfl, ih⟩

/-- An aggregate fails on `tuples`, whatever child yields them, and yields nothing before. -/
def Refuses (a : Aggregate) (tuples : List Tuple) (e : Error) : Prop :=
  ∀ (child : Operator) (db : Database) (s : (a.operator child).State) (c : child.State),
    child.start db s.body.child = (.ok (), c) → child.Yields db none c tuples →
      ∃ s', (a.operator child).start db s = (.ok (), s') ∧
        (a.operator child).Yields db (some e) s' []

theorem start_of_child {s : (a.operator child).State} {c : child.State}
    (h : child.start db s.body.child = (.ok (), c)) :
    (a.operator child).start db s = (.ok (), ⟨⟨c, none⟩, true, false⟩) := by
  have hstart : start child db s.body = (.ok (), ⟨c, none⟩) := by
    simp only [start, h]
  exact Machine.start_of_ok hstart

theorem emits_of_output (h : a.output tuples = .ok rows) : a.Emits tuples rows := by
  intro child db s c hc hyields
  have hcourse : (a.machine child).Course db (fun _ => (none : Option Unit)) ⟨c, none⟩ [] rows
      none := by
    refine .of_again fun n => ?_
    obtain ⟨rest, hcompute⟩ : ∃ rest, a.compute child db c n = (.ok rows, rest) :=
      ⟨_, Prod.ext ((compute_fst hyields n).trans h) rfl⟩
    refine ⟨⟨rest.1, some rows⟩, rest.2, ?_, follows_output rest.1 rows⟩
    show a.step child db ⟨c, none⟩ n = _
    simp only [step, hcompute]
    rfl
  exact ⟨_, start_of_child hc, hcourse.yields "Aggregate" a.layout.schema⟩

theorem refuses_of_output {e : Error} (h : a.output tuples = .error e) : a.Refuses tuples e := by
  intro child db s c hc hyields
  have hcourse : (a.machine child).Course db (fun _ => (none : Option Unit)) ⟨c, none⟩ [] []
      (some e) := by
    refine .of_ending fun n => ?_
    obtain ⟨rest, hcompute⟩ : ∃ rest, a.compute child db c n = (.error e, rest) :=
      ⟨_, Prod.ext ((compute_fst hyields n).trans h) rfl⟩
    refine ⟨⟨rest.1, none⟩, rest.2, ?_⟩
    show a.step child db ⟨c, none⟩ n = _
    simp only [step, hcompute]
    rfl
  exact ⟨_, start_of_child hc, hcourse.yields "Aggregate" a.layout.schema⟩

/-! ## Groups -/

variable {position : Nat} {key : Tuple → Key} {number : Tuple → Double}

/-- What is kept of the tuples with a key. -/
def total (number : Tuple → Double) (tuples : List Tuple) : Accumulator :=
  tuples.foldl (fun acc t => acc.update (number t)) .empty

/-- What is kept for the groups. -/
def items (key : Tuple → Key) (number : Tuple → Double) (tuples : List Tuple) :
    KeyMap Accumulator :=
  tuples.foldl (fun m t => m.update (key t) fun acc => (acc.getD .empty).update (number t)) .empty

theorem foldlM_add {acc : Accumulator} (hnumber : ∀ t ∈ tuples, a.measure t = .ok (number t)) :
    tuples.foldlM a.add acc = .ok (tuples.foldl (fun acc t => acc.update (number t)) acc) := by
  induction tuples generalizing acc with
  | nil => rfl
  | cons t tuples ih =>
    obtain ⟨ht, htuples⟩ := List.forall_mem_cons.1 hnumber
    rw [List.foldlM_cons, add, ht, ok_bind, pure_eq_ok, ok_bind, ih htuples, List.foldl_cons]

theorem foldlM_addGrouped {groups : Groups Accumulator}
    (hkey : ∀ t ∈ tuples, ∃ v, a.childLayout.field t position = .ok v ∧
      Key.typed v groups.keyType = .ok (key t))
    (hnumber : ∀ t ∈ tuples, a.measure t = .ok (number t)) :
    tuples.foldlM (a.addGrouped position) groups = .ok { groups with
      items := tuples.foldl
        (fun m t => m.update (key t) fun acc => (acc.getD .empty).update (number t))
        groups.items } := by
  induction tuples generalizing groups with
  | nil => rfl
  | cons t tuples ih =>
    obtain ⟨⟨v, hv, hk⟩, hkeys⟩ := List.forall_mem_cons.1 hkey
    obtain ⟨ht, htuples⟩ := List.forall_mem_cons.1 hnumber
    rw [List.foldlM_cons, addGrouped, hv, ok_bind, ht, ok_bind, Groups.update, hk, ok_bind,
      pure_eq_ok, ok_bind, List.foldl_cons]
    exact ih hkeys htuples

/-- Of each group is kept what its own tuples come to. -/
theorem get?_items (key : Tuple → Key) (number : Tuple → Double) (tuples : List Tuple) (k : Key) :
    (items key number tuples).get? k =
      if tuples.filter (key · = k) = [] then none
      else some (total number (tuples.filter (key · = k))) :=
  KeyMap.get?_foldl_update key (fun (acc : Accumulator) t => acc.update (number t)) .empty tuples
    .empty k

theorem mem_items {e : Key × Accumulator} :
    e ∈ (items key number tuples).entries ↔
      tuples.filter (key · = e.1) ≠ [] ∧ e.2 = total number (tuples.filter (key · = e.1)) := by
  rw [← KeyMap.get?_eq_some_iff, get?_items]
  split
  · rename_i hnil
    exact ⟨fun h => (by cases h), fun h => (h.1 hnil).elim⟩
  · rename_i hne
    rw [Option.some.injEq]
    exact ⟨fun h => ⟨hne, h.symm⟩, fun h => h.2.symm⟩

theorem count_total (number : Tuple → Double) (tuples : List Tuple) :
    (total number tuples).count = tuples.length := by
  have hcount : ∀ acc : Accumulator,
      (tuples.foldl (fun acc t => acc.update (number t)) acc).count =
        acc.count + tuples.length := by
    induction tuples with
    | nil => exact fun acc => rfl
    | cons t tuples ih =>
      intro acc
      rw [List.foldl_cons, ih, Accumulator.update, List.length_cons, Nat.add_right_comm,
        Nat.add_assoc]
  exact (hcount .empty).trans (Nat.zero_add _)

theorem count_total_ne_zero (number : Tuple → Double) (hne : tuples ≠ []) :
    (total number tuples).count ≠ 0 := by
  rw [count_total]
  exact fun h => hne (List.length_eq_zero_iff.1 h)

/-- Whether the field of a tuple at `position` is as large as a value. -/
def inGroup (a : Aggregate) (position : Nat) (v : Value) (t : Tuple) : Bool :=
  decide ((do v.compare (← a.childLayout.field t position)) = .ok .eq)

/-- One of any values that are equally large. -/
def distinct (values : List Value) : List Value :=
  values.pwFilter fun v w => v.compare w ≠ .ok .eq

/-- One group: the value that it is made by, its tuples, and the statistic over them. -/
structure Group where
  value : Value
  members : List Tuple
  statistic : Value

/-- The tuples in groups by the field at `position`. -/
structure Grouping (a : Aggregate) (position : Nat) (tuples : List Tuple) (groups : List Group) :
    Prop where
  ascending : groups.Pairwise fun g h => g.value.compare h.value = .ok .lt
  /-- A group has the tuples whose field is as large as its value, in their order. -/
  members_eq : ∀ g ∈ groups, g.members = tuples.filter (a.inGroup position g.value)
  members_ne : ∀ g ∈ groups, g.members ≠ []
  covers : ∀ t ∈ tuples, ∃ g ∈ groups, t ∈ g.members
  /-- There are as many groups as there are different values in the field. -/
  length_eq : ∀ values, tuples.mapM (a.childLayout.field · position) = .ok values →
    groups.length = (distinct values).length

theorem inGroup_eq {t : Tuple} {v w : Value} {k l : Key} {keyType : DataType}
    (hk : Key.typed v keyType = .ok k) (hw : a.childLayout.field t position = .ok w)
    (hl : Key.typed w keyType = .ok l) : a.inGroup position v t = decide (l = k) := by
  rw [inGroup, hw, ok_bind, Key.compare_of_typed hk hl]
  refine decide_eq_decide.2 ?_
  rw [Except.ok.injEq, Std.LawfulEqOrd.compare_eq_iff_eq, eq_comm]

theorem length_distinct {value : Tuple → Value} {keyType : DataType}
    (h : ∀ t ∈ tuples, Key.typed (value t) keyType = .ok (key t)) :
    (distinct (tuples.map value)).length = (tuples.map key).dedup.length :=
  length_pwFilter_compare h

/-- The groups of what is kept, each with a statistic. -/
def groupsOf (key : Tuple → Key) (number : Tuple → Double)
    (statistic : Key × Accumulator → Value) (tuples : List Tuple) : List Group :=
  (items key number tuples).entries.map fun e =>
    ⟨e.1.toValue, tuples.filter (key · = e.1), statistic e⟩

theorem mem_keys_items {k : Key} :
    k ∈ (items key number tuples).entries.map (·.1) ↔ ∃ t ∈ tuples, key t = k := by
  simp only [List.mem_map, Prod.exists, exists_and_right, exists_eq_right]
  constructor
  · rintro ⟨acc, he⟩
    obtain ⟨t, ht⟩ := List.exists_mem_of_ne_nil _ (mem_items.1 he).1
    obtain ⟨ht, hk⟩ := List.mem_filter.1 ht
    exact ⟨t, ht, of_decide_eq_true hk⟩
  · rintro ⟨t, ht, hk⟩
    have hmem : t ∈ tuples.filter (key · = k) := List.mem_filter.2 ⟨ht, decide_eq_true hk⟩
    exact ⟨total number (tuples.filter (key · = k)),
      mem_items.2 ⟨List.ne_nil_of_mem hmem, rfl⟩⟩

/-- Every tuple is in one group. -/
theorem flatMap_members_perm (key : Tuple → Key) (number : Tuple → Double)
    (statistic : Key × Accumulator → Value) (tuples : List Tuple) :
    ((groupsOf key number statistic tuples).flatMap (·.members)).Perm tuples := by
  rw [groupsOf, List.flatMap_map]
  exact KeyMap.flatMap_parts_perm fun t ht => mem_keys_items.2 ⟨t, ht, rfl⟩

theorem grouping_groupsOf {keyType : DataType} {statistic : Key × Accumulator → Value}
    (hkey : ∀ t ∈ tuples, ∃ v, a.childLayout.field t position = .ok v ∧
      Key.typed v keyType = .ok (key t)) :
    a.Grouping position tuples (groupsOf key number statistic tuples) := by
  have htyped : ∀ e ∈ (items key number tuples).entries,
      Key.typed e.1.toValue keyType = .ok e.1 := by
    intro e he
    obtain ⟨t, ht, hk⟩ := mem_keys_items.1 (List.mem_map_of_mem he)
    obtain ⟨v, -, hv⟩ := hkey t ht
    exact hk ▸ Key.typed_toValue_of_typed hv
  have hmembers : ∀ g ∈ groupsOf key number statistic tuples,
      ∃ e ∈ (items key number tuples).entries, g = ⟨e.1.toValue,
        tuples.filter (key · = e.1), statistic e⟩ := by
    intro g hg
    obtain ⟨e, he, rfl⟩ := List.mem_map.1 hg
    exact ⟨e, he, rfl⟩
  constructor
  case ascending =>
    refine List.pairwise_map.2 ((items key number tuples).sorted.imp_of_mem ?_)
    intro e f he hf hlt
    rw [Key.compare_of_typed (htyped e he) (htyped f hf)]
    exact congrArg _ (Key.lt_iff_compare.1 hlt)
  case members_eq =>
    intro g hg
    obtain ⟨e, he, rfl⟩ := hmembers g hg
    refine List.filter_congr fun t ht => ?_
    obtain ⟨v, hv, hk⟩ := hkey t ht
    exact (inGroup_eq (htyped e he) hv hk).symm
  case members_ne =>
    intro g hg
    obtain ⟨e, he, rfl⟩ := hmembers g hg
    exact (mem_items.1 he).1
  case covers =>
    intro t ht
    exact List.mem_flatMap.1 ((flatMap_members_perm key number statistic tuples).mem_iff.2 ht)
  case length_eq =>
    intro values hvalues
    have : Nonempty Value := ⟨.text []⟩
    choose! value hvalue using hkey
    rw [mapM_eq_ok fun t ht => (hvalue t ht).1, Except.ok.injEq] at hvalues
    rw [← hvalues, length_distinct fun t ht => (hvalue t ht).2,
      ← KeyMap.size_eq_of_mem_iff fun k => mem_keys_items, groupsOf, List.length_map, KeyMap.size]

/-! ## Statistics -/

theorem output_grouped {keyType : DataType} {row : Key × Accumulator → Tuple}
    (hgroup : a.groupBy = some (position, keyType))
    (hkey : ∀ t ∈ tuples, ∃ v, a.childLayout.field t position = .ok v ∧
      Key.typed v keyType = .ok (key t))
    (hnumber : ∀ t ∈ tuples, a.measure t = .ok (number t))
    (hrow : ∀ e ∈ (items key number tuples).entries, a.groupTuple [e.1.toValue] e.2 = .ok (row e)) :
    a.output tuples = .ok ((items key number tuples).entries.map row) := by
  have hitems : tuples.foldlM (a.addGrouped position) (.empty keyType) =
      .ok ⟨keyType, items key number tuples⟩ := foldlM_addGrouped hkey hnumber
  simp only [output, hgroup, hitems, Except.bind, grouped, Groups.toList, List.mapM_map]
  exact mapM_eq_ok hrow

/-- Without groups all tuples are one, unless there are none. -/
theorem output_total (hgroup : a.groupBy = none)
    (hnumber : ∀ t ∈ tuples, a.measure t = .ok (number t)) (hne : tuples ≠ []) :
    a.output tuples = do return [← a.groupTuple [] (total number tuples)] := by
  have htotal : tuples.foldlM a.add .empty = .ok (total number tuples) := foldlM_add hnumber
  have hcount := count_total_ne_zero number hne
  simp only [output, hgroup, htotal, Except.bind, ungrouped, if_neg hcount]

theorem emits_total {row : Tuple} (hgroup : a.groupBy = none)
    (hnumber : ∀ t ∈ tuples, a.measure t = .ok (number t)) (hne : tuples ≠ [])
    (hrow : a.groupTuple [] (total number tuples) = .ok row) : a.Emits tuples [row] := by
  apply emits_of_output
  rw [output_total hgroup hnumber hne, hrow, ok_bind, pure_eq_ok]

theorem emits_nil (a : Aggregate) : a.Emits [] [] := by
  apply emits_of_output
  cases hgroup : a.groupBy <;> simp only [output, hgroup] <;> rfl

/-- The aggregate by groups and the one without, made of the same names. -/
theorem exists_of_bind {input : Schema} {name group : String} {statistic : Statistic}
    {config : Config} (h : bind input name statistic (some group) config = .ok a) :
    ∃ found position grouping, input.find name = .ok (a.position, found) ∧
      found.dataType.isNumeric = true ∧ input.find group = .ok (position, grouping) ∧
      a.groupBy = some (position, grouping.dataType) ∧ a.statistic = statistic ∧
      a.childLayout = ⟨input, config.maxTupleSize⟩ ∧
      a.layout = ⟨[grouping, statisticAttribute statistic found], config.maxTupleSize⟩ ∧
      bind input name statistic none config = .ok { a with
        groupBy := none
        layout := ⟨[statisticAttribute statistic found], config.maxTupleSize⟩ } := by
  simp only [bind, bind_eq_ok_iff, throw_eq_error, error_bind, refuse_eq_ok_iff, pure_eq_ok,
    Except.ok.injEq, Option.mapM_some, Prod.exists] at h
  obtain ⟨_, hconfig, position, found, hfound, hnumeric, group?, hgroup?, rfl⟩ := h
  cases hgroup : input.find group with
  | error e => simp [hgroup] at hgroup?
  | ok p =>
    obtain rfl : some p = group? := by simpa [hgroup] using hgroup?
    refine ⟨found, p.1, p.2, hfound, by simpa using hnumeric, rfl, rfl, rfl, rfl, rfl, ?_⟩
    simp only [bind, hconfig, hfound, ok_bind, if_neg hnumeric, Option.mapM_none, pure_eq_ok,
      Option.map_none, Option.toList_none, List.nil_append]

/-- A count is that of the tuples. -/
theorem statistic_count {acc : Accumulator} {input : DataType} {v : Value}
    (h : acc.statistic .count input = .ok v) :
    v = .integer (Int32.ofNat acc.count) ∧ (Int32.ofNat acc.count).toInt = acc.count := by
  unfold Accumulator.statistic at h
  split at h
  · cases h
  · simp only at h
    split at h
    · rename_i hlt
      exact ⟨(Except.ok.inj h).symm, Int32.toInt_ofNat_of_lt hlt⟩
    · cases h

/-- Every tuple has a key and brings a number. -/
theorem exists_key_number {input : Schema} {limit : Nat} {found grouping : Attribute}
    (hchild : a.childLayout = ⟨input, limit⟩) (hfound : input[a.position]? = some found)
    (hnumeric : found.dataType.isNumeric = true) (hgrouping : input[position]? = some grouping)
    (hrow : ∀ t ∈ tuples, t.IsRow input)
    (hfinite : ∀ t ∈ tuples, ∀ i v, i = a.position ∨ i = position →
      a.childLayout.field t i = .ok v → v.isFinite = true) :
    ∃ (key : Tuple → Key) (number : Tuple → Double),
      (∀ t ∈ tuples, ∃ v, a.childLayout.field t position = .ok v ∧
        Key.typed v grouping.dataType = .ok (key t)) ∧
      ∀ t ∈ tuples, a.measure t = .ok (number t) := by
  have hfield : ∀ t ∈ tuples, ∀ i b, i = a.position ∨ i = position → input[i]? = some b →
      ∃ v, a.childLayout.field t i = .ok v ∧ v.dataType = b.dataType ∧ v.isFinite = true := by
    intro t ht i b hi hb
    obtain ⟨values, hvalues⟩ := hrow t ht
    obtain ⟨v, -, hv, htype⟩ := Layout.field_of_decode hvalues hb
    have hv' : a.childLayout.field t i = .ok v := by
      rw [hchild]
      exact hv
    exact ⟨v, hv', htype, hfinite t ht i v hi hv'⟩
  have hkeys : ∀ t ∈ tuples, ∃ k v, a.childLayout.field t position = .ok v ∧
      Key.typed v grouping.dataType = .ok k := by
    intro t ht
    obtain ⟨v, hv, htype, hf⟩ := hfield t ht _ _ (.inr rfl) hgrouping
    obtain ⟨k, hk⟩ := Key.exists_typed htype hf
    exact ⟨k, v, hv, hk⟩
  have hnumbers : ∀ t ∈ tuples, ∃ x, a.measure t = .ok x := by
    intro t ht
    obtain ⟨v, hv, htype, hf⟩ := hfield t ht _ _ (.inl rfl) hfound
    obtain ⟨x, hx⟩ := Value.exists_measure (htype ▸ hnumeric) hf
    exact ⟨x, by rw [measure, hv, ok_bind, hx]⟩
  have : Nonempty Key := ⟨.text []⟩
  have : Nonempty Double := ⟨.zero false⟩
  choose! key hkey using hkeys
  choose! number hnumber using hnumbers
  exact ⟨key, number, hkey, hnumber⟩

/-- Every group has a statistic and a tuple, if it is accepted. -/
theorem exists_result {keyType : DataType}
    (hkey : ∀ t ∈ tuples, ∃ v, a.childLayout.field t position = .ok v ∧
      Key.typed v keyType = .ok (key t))
    (hnumber : ∀ t ∈ tuples, a.measure t = .ok (number t))
    (haccepted : ∀ t ∈ tuples, ∀ v k acc, a.childLayout.field t position = .ok v →
      Key.typed v keyType = .ok k →
      (tuples.filter (a.inGroup position v)).foldlM a.add .empty = .ok acc →
      ∃ row, a.groupTuple [k.toValue] acc = .ok row) :
    ∃ (result : Key × Accumulator → Value) (row : Key × Accumulator → Tuple),
      ∀ e ∈ (items key number tuples).entries,
        e.2.statistic a.statistic a.input = .ok (result e) ∧
        a.layout.encode [e.1.toValue, result e] = .ok (row e) := by
  have hmade : ∀ e ∈ (items key number tuples).entries, ∃ v row,
      e.2.statistic a.statistic a.input = .ok v ∧ a.layout.encode [e.1.toValue, v] = .ok row := by
    intro e he
    obtain ⟨t, ht, hk⟩ := mem_keys_items.1 (List.mem_map_of_mem he)
    obtain ⟨v, hv, hkv⟩ := hkey t ht
    have hmembers : tuples.filter (a.inGroup position v) = tuples.filter (key · = e.1) := by
      refine List.filter_congr fun u hu => ?_
      obtain ⟨w, hw, hkw⟩ := hkey u hu
      rw [inGroup_eq hkv hw hkw, hk]
    have htotal : (tuples.filter (a.inGroup position v)).foldlM a.add .empty = .ok e.2 := by
      rw [hmembers, (mem_items.1 he).2]
      exact foldlM_add fun u hu => hnumber u (List.mem_of_mem_filter hu)
    obtain ⟨row, hrow⟩ := haccepted t ht v (key t) e.2 hv hkv htotal
    rw [hk] at hrow
    obtain ⟨w, hw, hencode⟩ := bind_eq_ok_iff.1 hrow
    exact ⟨w, row, hw, hencode⟩
  have : Nonempty Value := ⟨.text []⟩
  have : Nonempty Tuple := ⟨.empty⟩
  choose! result row hresult using hmade
  exact ⟨result, row, hresult⟩

/-- The counts of the groups add up to the number of tuples. -/
theorem exists_counts {input : DataType} {result : Key × Accumulator → Value}
    (hresult : ∀ e ∈ (items key number tuples).entries,
      e.2.statistic .count input = .ok (result e)) :
    ∃ counts : List Int32,
      (groupsOf key number result tuples).map (·.statistic) = counts.map .integer ∧
      (counts.map (·.toInt)).sum = tuples.length := by
  refine ⟨(items key number tuples).entries.map fun e => Int32.ofNat e.2.count, ?_, ?_⟩
  · rw [groupsOf, List.map_map, List.map_map]
    exact List.map_congr_left fun e he => (statistic_count (hresult e he)).1
  · have hlength := (flatMap_members_perm key number result tuples).length_eq
    rw [groupsOf, List.flatMap_map, List.length_flatMap] at hlength
    have hcounts : (items key number tuples).entries.map (fun e => (Int32.ofNat e.2.count).toInt) =
        ((items key number tuples).entries.map
          fun e => (tuples.filter (key · = e.1)).length).map (Nat.cast : Nat → Int) := by
      rw [List.map_map]
      refine List.map_congr_left fun e he => ?_
      rw [(statistic_count (hresult e he)).2, (mem_items.1 he).2, count_total]
      rfl
    rw [List.map_map, ← hlength, Nat.cast_list_sum]
    exact congrArg List.sum hcounts

/-- **Aggregating by groups is aggregating each group by itself.** It yields one tuple for each
value that occurs, in ascending order, with the statistic that the aggregate without groups yields
for the tuples of that value. Without tuples neither yields any. -/
theorem grouped_emits {input : Schema} {name group : String} {statistic : Statistic}
    {config : Config} {keyType : DataType}
    (hbind : bind input name statistic (some group) config = .ok a)
    (hgroup : a.groupBy = some (position, keyType)) (hrow : ∀ t ∈ tuples, t.IsRow input)
    (hfinite : ∀ t ∈ tuples, ∀ i v, i = a.position ∨ i = position →
      a.childLayout.field t i = .ok v → v.isFinite = true)
    (haccepted : ∀ t ∈ tuples, ∀ v k acc, a.childLayout.field t position = .ok v →
      Key.typed v keyType = .ok k →
      (tuples.filter (a.inGroup position v)).foldlM a.add .empty = .ok acc →
      ∃ row, a.groupTuple [k.toValue] acc = .ok row) :
    ∃ u groups rows, bind input name statistic none config = .ok u ∧
      a.Emits tuples rows ∧ a.Grouping position tuples groups ∧
      List.Forall₂ (fun g row => a.layout.encode [g.value, g.statistic] = .ok row) groups rows ∧
      (∀ g ∈ groups, ∃ row, u.layout.encode [g.statistic] = .ok row ∧ u.Emits g.members [row]) ∧
      (statistic = .count → ∃ counts : List Int32,
        groups.map (·.statistic) = counts.map .integer ∧
        (counts.map (·.toInt)).sum = tuples.length) ∧
      a.Emits [] [] ∧ u.Emits [] [] := by
  obtain ⟨found, position', grouping, hfound, hnumeric, hgrouping, hgroup', hstatistic, hchild,
    hlayout, hu⟩ := exists_of_bind hbind
  obtain ⟨rfl, rfl⟩ := Prod.mk.inj (Option.some.inj (hgroup'.symm.trans hgroup))
  obtain ⟨key, number, hkey, hnumber⟩ := exists_key_number hchild
    (Schema.getElem?_of_find hfound).1 hnumeric (Schema.getElem?_of_find hgrouping).1 hrow hfinite
  obtain ⟨result, row, hresult⟩ := exists_result hkey hnumber haccepted
  have hrows : ∀ e ∈ (items key number tuples).entries,
      a.groupTuple [e.1.toValue] e.2 = .ok (row e) :=
    fun e he => bind_eq_ok_iff.2 ⟨result e, hresult e he⟩
  refine ⟨_, groupsOf key number result tuples, (items key number tuples).entries.map row, hu,
    emits_of_output (output_grouped hgroup hkey hnumber hrows), grouping_groupsOf hkey, ?_, ?_, ?_,
    emits_nil _, emits_nil _⟩
  · rw [groupsOf, List.forall₂_map_left_iff, List.forall₂_map_right_iff, List.forall₂_same]
    exact fun e he => (hresult e he).2
  · intro g hg
    obtain ⟨e, he, rfl⟩ := List.mem_map.1 hg
    have htuple := (hresult e he).2
    rw [hlayout] at htuple
    obtain ⟨t, ht⟩ := Layout.exists_encode_tail htuple
    refine ⟨t, ht, emits_total rfl (fun u hu => hnumber u (List.mem_of_mem_filter hu))
      (mem_items.1 he).1 ?_⟩
    rw [← (mem_items.1 he).2]
    exact bind_eq_ok_iff.2 ⟨result e, (hresult e he).1, ht⟩
  · rintro rfl
    rw [hstatistic] at hresult
    exact exists_counts fun e he => (hresult e he).1

/-- The sum of one attribute by another. -/
def sums : Aggregate where
  statistic := .sum
  position := 1
  input := .integer
  groupBy := some (0, .real)
  childLayout := ⟨[.real "g", .integer "n"], 4096⟩
  layout := ⟨[.real "g", .real "SUM(n)"], 4096⟩

/-- Seven beside the one zero, five beside one, and nine beside the other zero. -/
def zeros : List Tuple :=
  [⟨[0, 0, 0, 128, 7, 0, 0, 0]⟩, ⟨[0, 0, 128, 63, 5, 0, 0, 0]⟩, ⟨[0, 0, 0, 0, 9, 0, 0, 0]⟩]

theorem grouped_emits_zeros :
    ∃ rows, sums.Emits zeros rows ∧ rows.length = 2 := by
  have hbind : bind [.real "g", .integer "n"] "n" .sum (some "g") {} = .ok sums := by rfl
  have hrow : ∀ t ∈ zeros, t.IsRow [.real "g", .integer "n"] := by
    simp only [zeros, List.forall_mem_cons, List.not_mem_nil, false_imp_iff, implies_true, and_true]
    exact ⟨⟨_, rfl⟩, ⟨_, rfl⟩, ⟨_, rfl⟩⟩
  have hfinite : ∀ t ∈ zeros, ∀ i v, i = 1 ∨ i = 0 →
      sums.childLayout.field t i = .ok v → v.isFinite = true := by
    simp only [zeros, List.forall_mem_cons, List.not_mem_nil, false_imp_iff, implies_true, and_true]
    refine ⟨?_, ?_, ?_⟩ <;> rintro i v (rfl | rfl) hv <;> exact Except.ok.inj hv ▸ rfl
  have haccepted : ∀ t ∈ zeros, ∀ v k acc, sums.childLayout.field t 0 = .ok v →
      Key.typed v .real = .ok k →
      (zeros.filter (sums.inGroup 0 v)).foldlM sums.add .empty = .ok acc →
      ∃ row, sums.groupTuple [k.toValue] acc = .ok row := by
    have hall : ∀ t ∈ zeros, (do
        let v ← sums.childLayout.field t 0
        let k ← Key.typed v .real
        let acc ← (zeros.filter (sums.inGroup 0 v)).foldlM sums.add .empty
        sums.groupTuple [k.toValue] acc).toOption.isSome = true := by decide +kernel
    intro t ht v k acc hv hk hacc
    have hsome := hall t ht
    rw [hv, ok_bind, hk, ok_bind, hacc, ok_bind] at hsome
    cases hrow : sums.groupTuple [k.toValue] acc with
    | error e => simp [hrow, Except.toOption] at hsome
    | ok row => exact ⟨row, rfl⟩
  obtain ⟨u, groups, rows, -, hemits, hgroups, hrows, -⟩ :=
    grouped_emits hbind rfl hrow hfinite haccepted
  exact ⟨rows, hemits, hrows.length_eq.symm.trans ((hgroups.length_eq _ rfl).trans (by decide))⟩

end Aggregate

end QueryEngine
