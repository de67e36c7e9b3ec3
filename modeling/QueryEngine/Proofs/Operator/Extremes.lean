import QueryEngine.Proofs.Numeric.Exact
import QueryEngine.Proofs.Operator.Leaf
import QueryEngine.Proofs.Operator.Typing

/-!
# Least and greatest values

An aggregate looks at numbers of eight bytes, from a start beyond all that it will see, and keeps
one of them. What it gives is nevertheless a value of the column, bit for bit: of those that are
least the first.

* `FirstBy`: the first of the items of a list whose rank is least.
* `Accumulator.best_update`, `Accumulator.firstBy_best`: one more number, and all numbers.
* `Value.FirstOf`: the first of the least or of the greatest values of a column, by their order.
* `Aggregate.Gives`: what comes of a statistic, by the room that there is for it.
* `Aggregate.exact_of_bind`: what an aggregate makes of a column, in any order of it.
-/

namespace QueryEngine

/-! ## First items -/

section Lists

variable {α β : Type} {rank : α → Int} {list : List α} {a b : α}

/-- `a` is the first of the items whose rank is least. -/
def FirstBy (rank : α → Int) (list : List α) (a : α) : Prop :=
  ∃ before after, list = before ++ a :: after ∧ (∀ b ∈ before, rank a < rank b) ∧
    ∀ b ∈ after, rank a ≤ rank b

theorem FirstBy.mem (h : FirstBy rank list a) : a ∈ list := by
  obtain ⟨before, after, rfl, -⟩ := h
  simp

theorem FirstBy.le (h : FirstBy rank list a) (hb : b ∈ list) : rank a ≤ rank b := by
  obtain ⟨before, after, rfl, hbefore, hafter⟩ := h
  rcases List.mem_append.1 hb with hb | hb
  · exact Int.le_of_lt (hbefore b hb)
  · rcases List.mem_cons.1 hb with rfl | hb
    · exact Int.le_refl _
    · exact hafter b hb

theorem firstBy_singleton (rank : α → Int) (a : α) : FirstBy rank [a] a :=
  ⟨[], [], rfl, by simp, by simp⟩

/-- One more item is the first if it is less than that, and changes nothing otherwise. -/
theorem FirstBy.append_singleton (h : FirstBy rank list a) (b : α) :
    FirstBy rank (list ++ [b]) (if rank b < rank a then b else a) := by
  split
  · rename_i hlt
    exact ⟨list, [], rfl, fun c hc => Int.lt_of_lt_of_le hlt (h.le hc), by simp⟩
  · rename_i hle
    obtain ⟨before, after, rfl, hbefore, hafter⟩ := h
    refine ⟨before, after ++ [b], by simp, hbefore, fun c hc => ?_⟩
    rcases List.mem_append.1 hc with hc | hc
    · exact hafter c hc
    · obtain rfl := List.mem_singleton.1 hc
      exact Int.not_lt.1 hle

theorem exists_of_firstBy_map {f : β → α} {list : List β} (h : FirstBy rank (list.map f) a) :
    ∃ b, f b = a ∧ FirstBy (rank ∘ f) list b := by
  obtain ⟨before, after, hlist, hbefore, hafter⟩ := h
  obtain ⟨before', rest, rfl, rfl, hrest⟩ := List.map_eq_append_iff.1 hlist
  obtain ⟨b, after', rfl, rfl, rfl⟩ := List.map_eq_cons_iff.1 hrest
  exact ⟨b, rfl, before', after', rfl, fun c hc => hbefore _ (List.mem_map_of_mem hc),
    fun c hc => hafter _ (List.mem_map_of_mem hc)⟩

/-- In any order of the items the first has the same rank. -/
theorem FirstBy.rank_eq {list' : List α} (h : FirstBy rank list a) (h' : FirstBy rank list' b)
    (hperm : list'.Perm list) : rank a = rank b :=
  Int.le_antisymm (h.le (hperm.mem_iff.1 h'.mem)) (h'.le (hperm.mem_iff.2 h.mem))

end Lists

/-! ## Accumulators -/

/-- The statistic that is the least number, or the greatest. -/
def Statistic.extreme (greatest : Bool) : Statistic := if greatest then .max else .min

namespace Binary

/-- By its rank, the number that is looked for comes first: the least, or the greatest. -/
def rank (greatest : Bool) (x : Double) : Int := if greatest then -x.signedUnits else x.signedUnits

theorem lt_eq {x y : Double} (hx : x.isFinite = true) (hy : y.isFinite = true) :
    x.lt y = decide (x.signedUnits < y.signedUnits) := by
  rw [lt, compare?, isNaN_of_isFinite hx, isNaN_of_isFinite hy]
  simp [Int.compare_eq_lt]

theorem isFinite_extreme (negative : Bool) : (extreme negative : Double).isFinite = true := by
  cases negative <;> decide

end Binary

namespace Accumulator

variable {acc : Accumulator} {x : Double} {v : Value} {numbers : List Double}

/-- The least of the numbers that were taken in, or the greatest. -/
def best (greatest : Bool) (acc : Accumulator) : Double := if greatest then acc.max else acc.min

/-- One more number. -/
theorem best_update {greatest : Bool} (hx : x.isFinite = true)
    (hbest : (acc.best greatest).isFinite = true) :
    (acc.update x).best greatest =
      if x.rank greatest < (acc.best greatest).rank greatest then x else acc.best greatest := by
  cases greatest with
  | false =>
    have hlt : x.lt acc.min = decide (x.signedUnits < acc.min.signedUnits) :=
      Binary.lt_eq hx hbest
    simp only [best, update, Binary.rank, Bool.false_eq_true, if_false, hlt, decide_eq_true_eq]
  | true =>
    have hlt : acc.max.lt x = decide (acc.max.signedUnits < x.signedUnits) :=
      Binary.lt_eq hbest hx
    simp only [best, update, Binary.rank, if_true, hlt, decide_eq_true_eq, Int.neg_lt_neg_iff]

/-- The first number takes the place of the start. -/
theorem best_first (greatest : Bool) (hv : v.Brings x) :
    (empty.update x).best greatest = x := by
  have hstart : empty.best greatest = .extreme greatest := by cases greatest <;> rfl
  have hlt := hv.units_lt_extreme greatest
  have hsize := x.signedUnits_le_units
  rw [best_update hv.isFinite (hstart ▸ Binary.isFinite_extreme greatest), hstart]
  refine if_pos ?_
  cases greatest with
  | false =>
    show x.signedUnits < ((Binary.extreme false : Double).units : Int)
    omega
  | true =>
    show -x.signedUnits < -(-((Binary.extreme true : Double).units : Int))
    omega

/-- After some numbers, each of which some value brings, the one that is kept is the first of
those that are least, or greatest. -/
theorem firstBy_best (greatest : Bool) (hne : numbers ≠ [])
    (hnumbers : ∀ x ∈ numbers, ∃ v : Value, v.Brings x) :
    FirstBy (Binary.rank greatest) numbers ((numbers.foldl update empty).best greatest) := by
  induction numbers using List.reverseRecOn with
  | nil => exact absurd rfl hne
  | append_singleton numbers x ih =>
    obtain ⟨v, hv⟩ := hnumbers x (by simp)
    rw [List.foldl_append, List.foldl_cons, List.foldl_nil]
    rcases eq_or_ne numbers [] with rfl | hsome
    · rw [List.foldl_nil, best_first greatest hv]
      exact firstBy_singleton _ x
    · have hfirst := ih hsome fun y hy => hnumbers y (List.mem_append_left _ hy)
      obtain ⟨w, hw⟩ := hnumbers _ (List.mem_append_left _ hfirst.mem)
      rw [best_update hv.isFinite hw.isFinite]
      exact hfirst.append_singleton x

theorem statistic_extreme (hcount : acc.count ≠ 0) (greatest : Bool) (input : DataType) :
    acc.statistic (.extreme greatest) input = typed input (acc.best greatest) := by
  cases greatest <;> exact if_neg hcount

theorem statistic_count (hcount : acc.count ≠ 0) (input : DataType) :
    acc.statistic .count input =
      if acc.count < 2 ^ 31 then .ok (.integer (Int32.ofNat acc.count))
      else .error (.internal .countOverflow) :=
  if_neg hcount

end Accumulator

/-! ## Columns -/

namespace Value

variable {greatest : Bool} {v w : Value} {x y : Double} {o : Ordering} {column : List Value}

/-- The order in which a value stands to the others if it is the least, or the greatest. -/
def preference (greatest : Bool) : Ordering := if greatest then .gt else .lt

theorem Brings.compare_of_rank_lt (hv : v.Brings x) (hw : w.Brings y) (h : v.dataType = w.dataType)
    (hlt : x.rank greatest < y.rank greatest) : v.compare w = .ok (preference greatest) := by
  rw [hv.compare_eq hw h]
  cases greatest with
  | false => exact congrArg _ (Int.compare_eq_lt.2 hlt)
  | true => exact congrArg _ (Int.compare_eq_gt.2 (Int.neg_lt_neg_iff.1 hlt))

theorem Brings.compare_of_rank_eq (hv : v.Brings x) (hw : w.Brings y) (h : v.dataType = w.dataType)
    (heq : x.rank greatest = y.rank greatest) : v.compare w = .ok .eq := by
  rw [hv.compare_eq hw h]
  cases greatest with
  | false => exact congrArg _ (Int.compare_eq_eq.2 heq)
  | true => exact congrArg _ (Int.compare_eq_eq.2 (Int.neg_inj.1 heq))

/-- `v` is the first of the values of a column that stand in the order `o` to all others: of the
least ones for `.lt`, and of the greatest ones for `.gt`. -/
def FirstOf (o : Ordering) (column : List Value) (v : Value) : Prop :=
  ∃ before after, column = before ++ v :: after ∧ (∀ w ∈ before, v.compare w = .ok o) ∧
    ∀ w ∈ after, v.compare w = .ok o ∨ v.compare w = .ok .eq

theorem FirstOf.mem (h : v.FirstOf o column) : v ∈ column := by
  obtain ⟨before, after, rfl, -⟩ := h
  simp

theorem FirstOf.compare_of_mem (h : v.FirstOf o column) (hw : w ∈ column) (hne : w ≠ v) :
    v.compare w = .ok o ∨ v.compare w = .ok .eq := by
  obtain ⟨before, after, rfl, hbefore, hafter⟩ := h
  rcases List.mem_append.1 hw with hw | hw
  · exact .inl (hbefore w hw)
  · exact hafter w ((List.mem_cons.1 hw).resolve_left hne)

/-- There is only one: if `v` came before `w`, they would stand in the order `o` both ways. -/
theorem FirstOf.unique (ho : o ≠ .eq) (hv : v.FirstOf o column) (hw : w.FirstOf o column) :
    v = w := by
  have hnot : ∀ {v w : Value}, w.compare v = .ok o →
      ¬(v.compare w = .ok o ∨ v.compare w = .ok .eq) := by
    intro v w hbefore hafter
    have hswap : v.compare w = .ok o.swap := compare_swap hbefore
    simp only [hswap, Except.ok.injEq] at hafter
    revert ho hafter
    cases o <;> decide
  obtain ⟨before, after, hcolumn, hbefore, hafter⟩ := hv
  obtain ⟨before', after', rfl, hbefore', hafter'⟩ := hw
  rcases List.append_eq_append_iff.1 hcolumn with ⟨between, rfl, hrest⟩ | ⟨between, rfl, hrest⟩
  · cases between with
    | nil => exact (List.cons.inj hrest).1.symm
    | cons u between =>
      obtain ⟨rfl, rfl⟩ := List.cons.inj hrest
      exact (hnot (hbefore w (by simp)) (hafter' v (by simp))).elim
  · cases between with
    | nil => exact (List.cons.inj hrest).1
    | cons u between =>
      obtain ⟨rfl, rfl⟩ := List.cons.inj hrest
      exact (hnot (hbefore' v (by simp)) (hafter w (by simp))).elim

/-- The first of some integers, in the order of whole numbers. -/
theorem FirstOf.exists_integer {numbers : List Int32} (h : v.FirstOf o (numbers.map .integer)) :
    ∃ n ∈ numbers, v = .integer n ∧
      ∀ m ∈ numbers, Ord.compare n.toInt m.toInt = o ∨ Ord.compare n.toInt m.toInt = .eq := by
  obtain ⟨n, hn, rfl⟩ := List.mem_map.1 h.mem
  refine ⟨n, hn, rfl, fun m hm => ?_⟩
  rcases eq_or_ne m n with rfl | hne
  · exact .inr Std.ReflOrd.compare_self
  · have hne' : Value.integer m ≠ .integer n := fun heq => hne (Value.integer.inj heq)
    exact (h.compare_of_mem (List.mem_map_of_mem hm) hne').imp Except.ok.inj Except.ok.inj

theorem firstOf_of_firstBy {α : Type} {value : α → Value} {number : α → Double} {list : List α}
    {a : α} {t : DataType} (h : FirstBy (Binary.rank greatest ∘ number) list a)
    (hbrings : ∀ b ∈ list, (value b).Brings (number b))
    (htype : ∀ b ∈ list, (value b).dataType = t) :
    (value a).FirstOf (preference greatest) (list.map value) := by
  have htypes : ∀ b ∈ list, (value a).dataType = (value b).dataType :=
    fun b hb => (htype a h.mem).trans (htype b hb).symm
  have hless : ∀ b ∈ list, Binary.rank greatest (number a) < Binary.rank greatest (number b) →
      (value a).compare (value b) = .ok (preference greatest) :=
    fun b hb => (hbrings a h.mem).compare_of_rank_lt (hbrings b hb) (htypes b hb)
  have hequal : ∀ b ∈ list, Binary.rank greatest (number a) = Binary.rank greatest (number b) →
      (value a).compare (value b) = .ok .eq :=
    fun b hb => (hbrings a h.mem).compare_of_rank_eq (hbrings b hb) (htypes b hb)
  obtain ⟨before, after, rfl, hbefore, hafter⟩ := h
  refine ⟨before.map value, after.map value, by simp, ?_, ?_⟩
  · rintro w hw
    obtain ⟨b, hb, rfl⟩ := List.mem_map.1 hw
    exact hless b (by simp [hb]) (hbefore b hb)
  · rintro w hw
    obtain ⟨b, hb, rfl⟩ := List.mem_map.1 hw
    rcases Int.lt_or_eq_of_le (hafter b hb) with hlt | heq
    · exact .inl (hless b (by simp [hb]) hlt)
    · exact .inr (hequal b (by simp [hb]) heq)

end Value

/-- What the least, the greatest and the number of the values of a column are. A number that is too
large for an integer is refused. -/
inductive Statistic.Tells (column : List Value) : Statistic → Except Error Value → Prop where
  | min {v} (h : Value.FirstOf .lt column v) : Tells column .min (.ok v)
  | max {v} (h : Value.FirstOf .gt column v) : Tells column .max (.ok v)
  | count (n : Int32) (h : n.toInt = column.length) : Tells column .count (.ok (.integer n))
  | overflow (h : 2 ^ 31 ≤ column.length) :
    Tells column .count (.error (.internal .countOverflow))

namespace Statistic.Tells

variable {numbers : List Int32} {answer : Except Error Value}

theorem least (h : Tells (numbers.map .integer) .min answer) :
    ∃ n ∈ numbers, answer = .ok (.integer n) ∧ ∀ m ∈ numbers, n ≤ m := by
  cases h with
  | min h =>
    obtain ⟨n, hn, rfl, horder⟩ := h.exists_integer
    refine ⟨n, hn, rfl, fun m hm => Int32.le_iff_toInt_le.2 ?_⟩
    rcases horder m hm with hlt | heq
    · exact Int.le_of_lt (Int.compare_eq_lt.1 hlt)
    · exact Int.le_of_eq (Int.compare_eq_eq.1 heq)

theorem greatest (h : Tells (numbers.map .integer) .max answer) :
    ∃ n ∈ numbers, answer = .ok (.integer n) ∧ ∀ m ∈ numbers, m ≤ n := by
  cases h with
  | max h =>
    obtain ⟨n, hn, rfl, horder⟩ := h.exists_integer
    refine ⟨n, hn, rfl, fun m hm => Int32.le_iff_toInt_le.2 ?_⟩
    rcases horder m hm with hgt | heq
    · exact Int.le_of_lt (Int.compare_eq_gt.1 hgt)
    · exact Int.le_of_eq (Int.compare_eq_eq.1 heq).symm

end Statistic.Tells

/-- Two answers that say the same, except which of equally large values they give. -/
def Value.Agree : Except Error Value → Except Error Value → Prop
  | .ok v, .ok w => v.compare w = .ok .eq
  | .error e, .error e' => e = e'
  | _, _ => False

theorem Value.encodedLength_number {v : Value} (h : v.dataType ≠ .text) : v.encodedLength = 4 := by
  cases v with
  | text bytes => exact absurd rfl h
  | _ => rfl

/-- A number takes four bytes, and that is all that can be wrong with it. -/
theorem Layout.encode_number {b : Attribute} {limit : Nat} {v : Value}
    (htype : v.dataType = b.dataType) (hnumber : v.dataType ≠ .text) :
    encode ⟨[b], limit⟩ [v] =
      if limit < 4 then .error (.tupleTooLarge 4 limit) else .ok ⟨v.encode⟩ := by
  have hlength : rowLength [v] = 4 := v.encodedLength_number hnumber
  have hfields := encodeFields_eq (.cons (Attribute.admits_number htype hnumber).1 .nil)
  rw [encode, if_neg (by simp), hlength, checkSize]
  split
  · rfl
  · rw [ok_bind, hfields]
    simp

namespace Aggregate

variable {a : Aggregate} {tuples : List Tuple} {e : Error}

/-! ## Aggregates without groups -/

/-- What an aggregate fails on it makes nothing of. -/
theorem Refuses.not_emits (h : a.Refuses tuples e) (rows : List Tuple) : ¬a.Emits tuples rows := by
  intro hemits
  have hchild := Materialized.yields ⟨[], tuples⟩ {} tuples
  let s := (a.operator (Materialized.operator ⟨[], tuples⟩)).initial
  obtain ⟨failing, hstart, hfails⟩ := h _ {} s _ rfl hchild
  obtain ⟨emitting, hstart', hyields⟩ := hemits _ {} s _ rfl hchild
  obtain rfl : failing = emitting := (Prod.mk.inj (hstart.symm.trans hstart')).2
  exact nomatch (hfails.unique hyields).2

/-- What comes of a statistic without groups: a tuple that holds it bit for bit, if there is room
for four bytes. -/
def Gives (a : Aggregate) (tuples : List Tuple) : Except Error Value → Prop
  | .error e => a.Refuses tuples e
  | .ok v =>
    if a.layout.maxTupleSize < 4 then a.Refuses tuples (.tupleTooLarge 4 a.layout.maxTupleSize)
    else a.layout.decode ⟨v.encode⟩ = .ok [v] ∧ a.Emits tuples [⟨v.encode⟩]

variable {number : Tuple → Double} {value : Tuple → Value} {b found : Attribute}

theorem gives_statistic (hgroup : a.groupBy = none) (hschema : a.layout.schema = [b])
    (htype : ∀ v, (total number tuples).statistic a.statistic a.input = .ok v →
      v.dataType = b.dataType ∧ v.dataType ≠ .text)
    (hnumber : ∀ t ∈ tuples, a.measure t = .ok (number t)) (hne : tuples ≠ []) :
    a.Gives tuples ((total number tuples).statistic a.statistic a.input) := by
  have houtput := output_total hgroup hnumber hne
  have hlayout : a.layout = ⟨[b], a.layout.maxTupleSize⟩ := hschema ▸ rfl
  cases hanswer : (total number tuples).statistic a.statistic a.input with
  | error e =>
    refine refuses_of_output ?_
    rw [houtput, groupTuple, hanswer, error_bind, error_bind]
  | ok v =>
    obtain ⟨hv, htext⟩ := htype v hanswer
    have hencode : Layout.encode ⟨[b], a.layout.maxTupleSize⟩ [v] = _ :=
      Layout.encode_number hv htext
    rw [← hlayout] at hencode
    rw [groupTuple, hanswer, ok_bind, List.nil_append, hencode] at houtput
    rw [Gives]
    split
    · rename_i hnarrow
      rw [if_pos hnarrow, error_bind] at houtput
      exact refuses_of_output houtput
    · rename_i hwide
      rw [if_neg hwide] at houtput hencode
      have hshort : Tuple.length ⟨v.encode⟩ < 2 ^ 32 := by
        rw [Tuple.length, Value.length_encode, v.encodedLength_number htext]
        decide
      exact ⟨Layout.decode_of_encode hencode (Layout.shortTexts_of_encode hencode hshort),
        emits_of_output houtput⟩

/-- What an aggregate without groups is once it is bound. -/
theorem bound_total {input : Schema} {name : String} {statistic : Statistic} {config : Config}
    (h : bind input name statistic none config = .ok a) :
    ∃ found, input.find name = .ok (a.position, found) ∧ found.dataType.isNumeric = true ∧
      a.statistic = statistic ∧ a.input = found.dataType ∧ a.groupBy = none ∧
      a.childLayout = ⟨input, config.maxTupleSize⟩ ∧
      a.layout = ⟨[statisticAttribute statistic found], config.maxTupleSize⟩ := by
  obtain ⟨position, found, group?, hfind, hnumeric, hgroup, rfl⟩ := eq_of_bind h
  obtain rfl : none = group? := Except.ok.inj hgroup
  exact ⟨found, hfind, hnumeric, rfl, rfl, rfl, rfl, rfl⟩

theorem dataType_of_statistic {acc : Accumulator} {statistic : Statistic} {v : Value}
    (hcount : acc.count ≠ 0) (h : acc.statistic statistic found.dataType = .ok v) :
    v.dataType = (statisticAttribute statistic found).dataType ∧ v.dataType ≠ .text := by
  have hmeets : Meets _ (fun _ => True) (acc.statistic statistic found.dataType) :=
    meets_statistic (fun _ _ => trivial) (Nat.pos_of_ne_zero hcount) found
  obtain ⟨hadmits, -⟩ := (meets_iff.1 hmeets).1 v h
  refine ⟨hadmits.dataType, ?_⟩
  rw [hadmits.dataType, statisticAttribute]
  split <;> exact nofun

/-- Each of the tuples has a finite value in the field, which brings a number. -/
structure Reads (a : Aggregate) (tuples : List Tuple) (value : Tuple → Value)
    (number : Tuple → Double) : Prop where
  field : ∀ t ∈ tuples, a.childLayout.field t a.position = .ok (value t)
  dataType : ∀ t ∈ tuples, (value t).dataType = a.input
  brings : ∀ t ∈ tuples, (value t).Brings (number t)
  measure : ∀ t ∈ tuples, a.measure t = .ok (number t)

theorem exists_reads (hfound : a.childLayout.schema[a.position]? = some found)
    (hinput : a.input = found.dataType) (hnumeric : found.dataType.isNumeric = true)
    (hrows : ∀ t ∈ tuples, t.IsRow a.childLayout.schema)
    (hfinite : ∀ t ∈ tuples, ∀ v, a.childLayout.field t a.position = .ok v → v.isFinite = true) :
    ∃ value number, a.Reads tuples value number := by
  have hread : ∀ t ∈ tuples, ∃ v x, a.childLayout.field t a.position = .ok v ∧
      v.dataType = a.input ∧ v.Brings x ∧ a.measure t = .ok x := by
    intro t ht
    obtain ⟨row, hrow⟩ := hrows t ht
    obtain ⟨v, -, hv, htype⟩ := Layout.field_of_decode hrow hfound
    obtain ⟨x, hx⟩ := Value.exists_measure (htype ▸ hnumeric) (hfinite t ht v hv)
    refine ⟨v, x, hv, htype.trans hinput.symm, .of_measure (hfinite t ht v hv) hx, ?_⟩
    rw [measure, show a.childLayout.field t a.position = .ok v from hv, ok_bind, hx]
  have : Nonempty Value := ⟨.text []⟩
  have : Nonempty Double := ⟨.zero false⟩
  choose! value number hread using hread
  exact ⟨value, number, fun t ht => (hread t ht).1, fun t ht => (hread t ht).2.1,
    fun t ht => (hread t ht).2.2.1, fun t ht => (hread t ht).2.2.2⟩

namespace Reads

variable {reordered : List Tuple}

theorem perm (h : a.Reads tuples value number) (hperm : reordered.Perm tuples) :
    a.Reads reordered value number where
  field t ht := h.field t (hperm.mem_iff.1 ht)
  dataType t ht := h.dataType t (hperm.mem_iff.1 ht)
  brings t ht := h.brings t (hperm.mem_iff.1 ht)
  measure t ht := h.measure t (hperm.mem_iff.1 ht)

/-- The statistic is the value of the first of the tuples whose number is least, or greatest. -/
theorem exists_first (h : a.Reads tuples value number) (hne : tuples ≠ []) (greatest : Bool) :
    ∃ t, FirstBy (Binary.rank greatest ∘ number) tuples t ∧
      (total number tuples).statistic (.extreme greatest) a.input = .ok (value t) := by
  have hfold : total number tuples = (tuples.map number).foldl Accumulator.update .empty :=
    List.foldl_map.symm
  have hbrings : ∀ x ∈ tuples.map number, ∃ v : Value, v.Brings x :=
    List.forall_mem_map.2 fun t ht => ⟨value t, h.brings t ht⟩
  obtain ⟨t, hnumber, hfirst⟩ := exists_of_firstBy_map
    (Accumulator.firstBy_best greatest (by simpa using hne) hbrings)
  refine ⟨t, hfirst, ?_⟩
  rw [Accumulator.statistic_extreme (count_total_ne_zero number hne), hfold, ← hnumber,
    ← h.dataType t hfirst.mem]
  exact (h.brings t hfirst.mem).typed_eq

theorem tells (h : a.Reads tuples value number) (hne : tuples ≠ []) {s : Statistic}
    (hs : s = .min ∨ s = .max ∨ s = .count) :
    s.Tells (tuples.map value) ((total number tuples).statistic s a.input) := by
  have hfirst : ∀ greatest, ∃ v, v.FirstOf (Value.preference greatest) (tuples.map value) ∧
      (total number tuples).statistic (.extreme greatest) a.input = .ok v := by
    intro greatest
    obtain ⟨t, hfirst, hanswer⟩ := h.exists_first hne greatest
    exact ⟨value t, Value.firstOf_of_firstBy hfirst h.brings h.dataType, hanswer⟩
  rcases hs with rfl | rfl | rfl
  · obtain ⟨v, hv, hanswer⟩ := hfirst false
    exact hanswer ▸ .min hv
  · obtain ⟨v, hv, hanswer⟩ := hfirst true
    exact hanswer ▸ .max hv
  · rw [Accumulator.statistic_count (count_total_ne_zero number hne), count_total]
    split
    · rename_i hlt
      exact .count _ (by rw [Int32.toInt_ofNat_of_lt hlt, List.length_map])
    · rename_i hge
      exact .overflow (by rw [List.length_map]; omega)

/-- In another order the tuples give the same, up to the choice among equally large values. -/
theorem agree (h : a.Reads tuples value number) (hne : tuples ≠ [])
    (hperm : reordered.Perm tuples) {s : Statistic} (hs : s = .min ∨ s = .max ∨ s = .count) :
    Value.Agree ((total number tuples).statistic s a.input)
      ((total number reordered).statistic s a.input) := by
  have hne' : reordered ≠ [] := fun hnil => hne (List.nil_perm.1 (hnil ▸ hperm))
  have hextreme : ∀ greatest, Value.Agree
      ((total number tuples).statistic (.extreme greatest) a.input)
      ((total number reordered).statistic (.extreme greatest) a.input) := by
    intro greatest
    obtain ⟨t, hfirst, hanswer⟩ := h.exists_first hne greatest
    obtain ⟨t', hfirst', hanswer'⟩ := (h.perm hperm).exists_first hne' greatest
    have ht' := hperm.mem_iff.1 hfirst'.mem
    rw [hanswer, hanswer']
    exact (h.brings t hfirst.mem).compare_of_rank_eq (h.brings t' ht')
      ((h.dataType t hfirst.mem).trans (h.dataType t' ht').symm) (hfirst.rank_eq hfirst' hperm)
  rcases hs with rfl | rfl | rfl
  · exact hextreme false
  · exact hextreme true
  · rw [Accumulator.statistic_count (count_total_ne_zero number hne),
      Accumulator.statistic_count (count_total_ne_zero number hne'), count_total, count_total,
      hperm.length_eq]
    split
    · exact congrArg Except.ok Std.ReflOrd.compare_self
    · exact rfl

end Reads

/-- What an aggregate without groups makes of tuples with a column of values, if its statistic comes
to `answer`. -/
structure Exact (a : Aggregate) (tuples : List Tuple) (column : List Value)
    (answer : Except Error Value) : Prop where
  column_eq : tuples.mapM (a.childLayout.field · a.position) = .ok column
  tells : a.statistic.Tells column answer
  gives : a.Gives tuples answer
  /-- Of integers it is the least one, or the greatest. -/
  least : a.statistic = .min → ∀ numbers : List Int32, column = numbers.map .integer →
    ∃ n ∈ numbers, answer = .ok (.integer n) ∧ ∀ m ∈ numbers, n ≤ m
  greatest : a.statistic = .max → ∀ numbers : List Int32, column = numbers.map .integer →
    ∃ n ∈ numbers, answer = .ok (.integer n) ∧ ∀ m ∈ numbers, m ≤ n
  /-- The order of the tuples makes no difference, except among values that are equally large. -/
  reordered : ∀ tuples' : List Tuple, tuples'.Perm tuples →
    ∃ answer', a.Gives tuples' answer' ∧ Value.Agree answer answer'

/-- **The least, the greatest and the number of the values of a column are exact**, and do not
depend on the order of the tuples. They are yielded if there is room for the four bytes of a
number. -/
theorem exact_of_bind {input : Schema} {name : String} {statistic : Statistic} {config : Config}
    (hbind : bind input name statistic none config = .ok a)
    (hstatistic : statistic = .min ∨ statistic = .max ∨ statistic = .count) (hne : tuples ≠ [])
    (hrows : ∀ t ∈ tuples, t.IsRow input)
    (hfinite : ∀ t ∈ tuples, ∀ v, a.childLayout.field t a.position = .ok v → v.isFinite = true) :
    (∃ found, input.find name = .ok (a.position, found)) ∧
      a.childLayout = ⟨input, config.maxTupleSize⟩ ∧
      a.layout.maxTupleSize = config.maxTupleSize ∧ a.statistic = statistic ∧
      ∃ column answer, a.Exact tuples column answer := by
  obtain ⟨found, hfind, hnumeric, hs, hinput, hgroup, hchild, hlayout⟩ := bound_total hbind
  subst hs
  have hschema : a.childLayout.schema = input := hchild ▸ rfl
  refine ⟨⟨found, hfind⟩, hchild, by rw [hlayout], rfl, ?_⟩
  subst hschema
  obtain ⟨value, number, hreads⟩ :=
    exists_reads (Schema.getElem?_of_find hfind).1 hinput hnumeric hrows hfinite
  have hgives : ∀ tuples' : List Tuple, tuples'.Perm tuples →
      a.Gives tuples' ((total number tuples').statistic a.statistic a.input) := by
    intro tuples' hperm
    have hne' : tuples' ≠ [] := fun hnil => hne (List.nil_perm.1 (hnil ▸ hperm))
    have hlayout' : a.layout.schema = [statisticAttribute a.statistic found] := by rw [hlayout]
    refine gives_statistic hgroup hlayout' (fun v hv => ?_) (hreads.perm hperm).measure hne'
    exact dataType_of_statistic (count_total_ne_zero _ hne') (hinput ▸ hv)
  have htells := hreads.tells hne hstatistic
  refine ⟨_, _, mapM_eq_ok hreads.field, htells, hgives tuples (.refl _), ?_, ?_, ?_⟩
  · intro hmin numbers hcolumn
    rw [hmin, hcolumn] at htells
    rw [hmin]
    exact htells.least
  · intro hmax numbers hcolumn
    rw [hmax, hcolumn] at htells
    rw [hmax]
    exact htells.greatest
  · exact fun tuples' hperm => ⟨_, hgives tuples' hperm, hreads.agree hne hperm hstatistic⟩

/-- Of the reals one and the two zeros, the least is the zero that comes first, with its sign. -/
theorem exact_of_bind_zeros :
    let a : Aggregate :=
      ⟨.min, 0, .real, none, ⟨[.real "x"], 4096⟩, ⟨[.real "MIN(x)"], 4096⟩⟩
    let tuples : List Tuple := [⟨[0, 0, 128, 63]⟩, ⟨[0, 0, 0, 128]⟩, ⟨[0, 0, 0, 0]⟩]
    bind [.real "x"] "x" .min none {} = .ok a ∧ (∀ t ∈ tuples, t.IsRow [.real "x"]) ∧
      (∀ t ∈ tuples, ∀ v, a.childLayout.field t a.position = .ok v → v.isFinite = true) ∧
      a.Emits tuples [⟨[0, 0, 0, 128]⟩] := by
  intro a tuples
  have hbind : bind [.real "x"] "x" .min none {} = .ok a := rfl
  have hrows : ∀ t ∈ tuples, t.IsRow [.real "x"] := by
    simp only [tuples, List.forall_mem_cons, List.not_mem_nil, false_imp_iff, implies_true,
      and_true]
    exact ⟨⟨_, rfl⟩, ⟨_, rfl⟩, ⟨_, rfl⟩⟩
  have hfinite : ∀ t ∈ tuples, ∀ v, a.childLayout.field t a.position = .ok v →
      v.isFinite = true := by
    simp only [tuples, List.forall_mem_cons, List.not_mem_nil, false_imp_iff, implies_true,
      and_true]
    refine ⟨?_, ?_, ?_⟩ <;> rintro v hv <;> exact Except.ok.inj hv ▸ rfl
  obtain ⟨-, -, -, -, column, answer, hexact⟩ :=
    exact_of_bind hbind (.inl rfl) (List.cons_ne_nil _ _) hrows hfinite
  refine ⟨hbind, hrows, hfinite, ?_⟩
  have hread : tuples.mapM (a.childLayout.field · a.position) =
      .ok [.real (.ofBits 0x3f800000), .real (.zero true), .real (.zero false)] := by
    decide +kernel
  obtain rfl := Except.ok.inj (hread.symm.trans hexact.column_eq)
  have hzero : Value.FirstOf .lt _ (.real (.zero true)) :=
    ⟨[.real (.ofBits 0x3f800000)], [.real (.zero false)], rfl, by decide, by decide⟩
  have htells : Statistic.Tells _ .min answer := hexact.tells
  cases htells with
  | min hfirst =>
    obtain rfl := hfirst.unique (by decide) hzero
    exact hexact.gives.2

/-- Where there is no room for four bytes, nothing is yielded. -/
theorem exact_needs_room :
    let a : Aggregate :=
      ⟨.min, 0, .integer, none, ⟨[.integer "n"], 3⟩, ⟨[.integer "MIN(n)"], 3⟩⟩
    let tuples : List Tuple := [⟨[7, 0, 0, 0]⟩]
    bind [.integer "n"] "n" .min none { maxTupleSize := 3 } = .ok a ∧
      (∀ t ∈ tuples, t.IsRow [.integer "n"]) ∧
      (∀ t ∈ tuples, ∀ v, a.childLayout.field t a.position = .ok v → v.isFinite = true) ∧
      a.Refuses tuples (.tupleTooLarge 4 3) ∧ ∀ rows, ¬a.Emits tuples rows := by
  intro a tuples
  have hrefuses : a.Refuses tuples (.tupleTooLarge 4 3) := refuses_of_output (by decide +kernel)
  refine ⟨rfl, ?_, ?_, hrefuses, hrefuses.not_emits⟩
  · rintro t ht
    obtain rfl := List.mem_singleton.1 ht
    exact ⟨_, rfl⟩
  · rintro t ht v hv
    obtain rfl := List.mem_singleton.1 ht
    exact Except.ok.inj hv ▸ rfl

end Aggregate

end QueryEngine
