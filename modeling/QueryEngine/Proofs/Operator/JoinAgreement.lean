import QueryEngine.Proofs.Operator.BlockJoin
import QueryEngine.Proofs.Operator.HashJoin
import QueryEngine.Proofs.Operator.IndexJoin

/-!
# Joins agree

A join may come upon a real that is not finite when it compares a pair, when it looks a tuple up, or
when it spreads its tuples, and upon a pair that is too long at any time. Which of these comes first
is different from join to join, but whether there is one is not.

* `JoinPredicate.Settles`: what draining a join may come to, by the tuples of its two sides.
* `BlockJoin.settles`, `IndexJoin.settles`, `HashJoin.settles`: each join comes to that.
* `JoinPredicate.Settles.agree`: so joins of the same tuples succeed together, and then give the
  same pairs.
* `HashJoin.rejects`: a hash join fails if a tuple has no room in a file.
* `TableJoins`: joins of two tables, to which all this is applied.
-/

namespace QueryEngine

namespace JoinPredicate

variable {p : JoinPredicate} {limit : Nat} {lefts rights : List Tuple} {a b : Tuple}

/-! ## What a join may come to -/

/-- The left tuple has a key, if pairs are joined by keys at all. -/
def Keyed (p : JoinPredicate) (a : Tuple) : Prop :=
  p.comparator.needsValue = true → ∃ k, p.leftKey a = .ok k

/-- The left tuple has none, as the value that it has to be joined by is not finite. -/
def Refuses (p : JoinPredicate) (a : Tuple) : Prop :=
  p.comparator.needsValue = true ∧
    ∃ v, p.leftValue a = .ok v ∧ v.dataType = p.keyType ∧ v.isFinite = false

/-- The errors that a join may fail in: there is a left tuple that cannot be joined, or a pair that
matches and is too long. -/
def Allows (p : JoinPredicate) (limit : Nat) (lefts rights : List Tuple) (e : Error) : Prop :=
  (e = .nonFiniteReal ∧ ∃ a ∈ lefts, p.Refuses a) ∨
    ∃ x ∈ pairs p.joins lefts rights, limit < (x.1 ++ x.2).length ∧
      e = .tupleTooLarge (x.1 ++ x.2).length limit

/-- What draining a join may come to: the pairs that match in some order, if nothing is in the way,
and otherwise an error. -/
def Settles (p : JoinPredicate) (limit : Nat) (lefts rights : List Tuple) :
    Except Error (List Tuple) → Prop
  | .ok tuples =>
    (∀ a ∈ lefts, p.Keyed a) ∧
      (∀ x ∈ pairs p.joins lefts rights, (x.1 ++ x.2).length ≤ limit) ∧
      tuples.Perm ((pairs p.joins lefts rights).map fun x => x.1 ++ x.2)
  | .error e => p.Allows limit lefts rights e

theorem leftKey_of_refuses (h : p.Refuses a) : p.leftKey a = .error .nonFiniteReal := by
  obtain ⟨-, v, hv, ht, hf⟩ := h
  rw [leftKey, hv, ok_bind, Key.typed_eq_nonFiniteReal ht hf]

theorem not_refuses_of_keyed (h : p.Keyed a) : ¬p.Refuses a := by
  intro hr
  obtain ⟨k, hk⟩ := h hr.1
  rw [leftKey_of_refuses hr] at hk
  cases hk

/-- Tuples of two sides that can be read, with keys on the right. -/
structure Joinable (p : JoinPredicate) (lefts rights : List Tuple) : Prop where
  left : ∀ a ∈ lefts, ∃ v, p.leftValue a = .ok v ∧ v.dataType = p.keyType
  right : p.comparator.needsValue = true → ∀ b ∈ rights, ∃ k, p.rightKey b = .ok k

theorem Joinable.keyed_or_refuses (h : p.Joinable lefts rights) (ha : a ∈ lefts) :
    p.Keyed a ∨ p.Refuses a := by
  obtain ⟨v, hv, ht⟩ := h.left a ha
  cases hf : v.isFinite with
  | true =>
    obtain ⟨k, hk⟩ := Key.exists_typed ht hf
    exact .inl fun _ => ⟨k, leftKey_eq_ok_iff.2 ⟨v, hv, hk⟩⟩
  | false =>
    cases hn : p.comparator.needsValue with
    | true => exact .inr ⟨hn, v, hv, ht, hf⟩
    | false => exact .inl fun h => absurd (hn.symm.trans h) Bool.false_ne_true

theorem Joinable.comparable (h : p.Joinable lefts rights) (ha : p.Keyed a) (hb : b ∈ rights) :
    p.Comparable a b := by
  intro hn
  obtain ⟨k, hk⟩ := ha hn
  obtain ⟨k', hk'⟩ := h.right hn b hb
  exact comparable_of_keys hk hk' hn

theorem Joinable.test_of_refuses (h : p.Joinable lefts rights) (ha : p.Refuses a)
    (hb : b ∈ rights) : Trial.test p limit (a, b) = .error .nonFiniteReal := by
  obtain ⟨hn, v, hv, ht, hf⟩ := ha
  obtain ⟨k, hk⟩ := h.right hn b hb
  obtain ⟨w, hw, hwk⟩ := rightKey_eq_ok_iff.1 hk
  have hcompare : v.compare w = .error .nonFiniteReal :=
    Key.compare_eq_error (ht.trans (Key.dataType_of_typed hwk).symm) hf
  rw [Trial.test, evaluate, if_pos hn, hv, ok_bind, hw, ok_bind, hcompare]
  rfl

end JoinPredicate

variable {db : Database} {left right : Operator} {lefts rights : List Tuple}

/-! ## Block joins -/

/-- Where all pairs are tested, every left tuple has been compared with some right one. -/
theorem BlockJoin.settles {join : BlockJoin} {s : (join.operator left).State} {l : left.State}
    {rows : List Row} (hlstart : left.start db s.body.left = (.ok (), l))
    (hl : left.Yields db none l lefts) (hr : join.right.Reads db s.body.right rows)
    (hj : join.predicate.Joinable lefts (rows.map (·.2))) (hne : rows ≠ []) (n : Nat) :
    join.predicate.Settles join.maxTupleSize lefts (rows.map (·.2))
      ((join.operator left).collectTuples db s n).1 := by
  obtain ⟨calls, rewinds, hstart⟩ := exists_start hlstart hr
  have hfollows : (join.machine left).Follows db tried?
      (.filling l (TableScan.reading rows rows calls rewinds false) [] false)
      (join.trial (allTests join.budget lefts (rows.map (·.2)))) :=
    follows_filling hl calls rewinds false
  have hdrained : ((join.operator left).collectTuples db s n).1 = _ :=
    hfollows.collectTuples_fst hstart n
  rw [hdrained]
  have hmem : ∀ x, x ∈ allTests join.budget lefts (rows.map (·.2)) ↔
      x.1 ∈ lefts ∧ x.2 ∈ rows.map (·.2) := fun x =>
    (allTests_perm join.budget lefts (rows.map (·.2))).mem_iff.trans List.pair_mem_product
  rcases Trial.exists_made_or (Trial.test join.predicate join.maxTupleSize)
    (allTests join.budget lefts (rows.map (·.2))) with hmade | ⟨x, hx, e, he, hstop⟩
  · obtain ⟨row, hrow⟩ := List.exists_mem_of_ne_nil rows hne
    have hkeyed : ∀ a ∈ lefts, join.predicate.Keyed a := by
      intro a ha
      rcases hj.keyed_or_refuses ha with hk | hrefuses
      · exact hk
      · obtain ⟨made, hm⟩ := hmade (a, row.2) ((hmem _).2 ⟨ha, List.mem_map_of_mem hrow⟩)
        rw [hj.test_of_refuses hrefuses (List.mem_map_of_mem hrow)] at hm
        cases hm
    have hcomparable : ∀ x ∈ allTests join.budget lefts (rows.map (·.2)),
        join.predicate.Comparable x.1 x.2 := fun x hx =>
      hj.comparable (hkeyed _ ((hmem x).1 hx).1) ((hmem x).1 hx).2
    have hfits : ∀ x ∈ allTests join.budget lefts (rows.map (·.2)),
        join.predicate.joins x.1 x.2 = true → (x.1 ++ x.2).length ≤ join.maxTupleSize := by
      intro x hx hjoins
      obtain ⟨made, hm⟩ := hmade x hx
      rw [Trial.test_of_comparable (hcomparable x hx), if_pos hjoins] at hm
      exact Trial.le_of_concat hm
    rw [trial, Trial.of_test hcomparable hfits, ← joined_eq]
    refine ⟨hkeyed, fun x hx => ?_, joined_perm _ _ _ _⟩
    obtain ⟨ha, hb, hjoins⟩ := mem_pairs.1 hx
    exact hfits x ((hmem x).2 ⟨ha, hb⟩) hjoins
  · rw [trial, Trial.answer_of_stop hstop]
    obtain ⟨ha, hb⟩ := (hmem x).1 hx
    rcases hj.keyed_or_refuses ha with hkeyed | hrefuses
    · rw [Trial.test_of_comparable (hj.comparable hkeyed hb)] at he
      split at he
      · rename_i hjoins
        exact .inr ⟨x, mem_pairs.2 ⟨ha, hb, hjoins⟩, Trial.eq_of_concat_error he⟩
      · cases he
    · rw [hj.test_of_refuses hrefuses hb] at he
      exact .inl ⟨(Except.error.inj he).symm, x.1, ha, hrefuses⟩

/-! ## Index joins -/

theorem IndexJoin.refusal_of_refuses {join : IndexJoin} {a : Tuple}
    (h : join.predicate.Refuses a) : join.refusal a = some .nonFiniteReal := by
  rw [refusal, if_pos h.1, JoinPredicate.leftKey_of_refuses h]

theorem IndexJoin.settles {join : IndexJoin} {s : (join.operator left).State} {l : left.State}
    {r : IndexScan.State} {index : Index} {keyed : List (Key × Row)} {rows : List Row}
    (hs : join.Serves db index keyed) (hperm : (keyed.map (·.2)).Perm rows)
    (hlstart : left.start db s.body.left = (.ok (), l)) (hl : left.Yields db none l lefts)
    (hrstart : join.right.start db s.body.right = (.ok (), r))
    (hj : join.predicate.Joinable lefts (rows.map (·.2))) (n : Nat) :
    join.predicate.Settles join.maxTupleSize lefts (rows.map (·.2))
      ((join.operator left).collectTuples db s n).1 := by
  obtain ⟨_, _, -, -, hopened, -⟩ := IndexScan.exists_of_start hrstart
  have hfinds : ∀ a ∈ lefts, join.Finds index keyed a (join.found (keyed.map (·.2)) a) := by
    intro a ha
    obtain ⟨v, hv, -⟩ := hj.left a ha
    exact hs.finds hv
  have hfollows := follows_left hs.toServes hl hfinds hopened
  have hdrained : ((join.operator left).collectTuples db s n).1 = _ :=
    hfollows.collectTuples_fst (exists_start hlstart hrstart) n
  rw [hdrained]
  have hpairs : (pairs join.predicate.joins lefts ((keyed.map (·.2)).map (·.2))).Perm
      (pairs join.predicate.joins lefts (rows.map (·.2))) :=
    pairs_perm_right _ _ (hperm.map _)
  rcases Trial.exists_made_or join.attempt (lefts.flatMap (join.found (keyed.map (·.2)))) with
    hmade | ⟨x, hx, e, he, hstop⟩
  · have hkeyed : ∀ a ∈ lefts, join.predicate.Keyed a := by
      intro a ha
      rcases hj.keyed_or_refuses ha with hk | hrefuses
      · exact hk
      · have hfound : .error .nonFiniteReal ∈ join.found (keyed.map (·.2)) a := by
          rw [found, refusal_of_refuses hrefuses]
          exact List.mem_singleton_self _
        obtain ⟨made, hm⟩ := hmade _ (List.mem_flatMap.2 ⟨a, ha, hfound⟩)
        cases hm
    rw [flatMap_found fun a ha => refusal_eq_none (hkeyed a ha)] at hmade ⊢
    have hfits : ∀ x ∈ pairs join.predicate.joins lefts ((keyed.map (·.2)).map (·.2)),
        (x.1 ++ x.2).length ≤ join.maxTupleSize := by
      intro x hx
      obtain ⟨made, hm⟩ := hmade (.ok x) (List.mem_map_of_mem hx)
      exact Trial.le_of_concat hm
    rw [trial_map_ok hfits]
    exact ⟨hkeyed, fun x hx => hfits x (hpairs.mem_iff.2 hx), hpairs.map _⟩
  · rw [trial, Trial.answer_of_stop hstop]
    obtain ⟨a, ha, hxa⟩ := List.mem_flatMap.1 hx
    rcases hj.keyed_or_refuses ha with hkeyed | hrefuses
    · rw [found, refusal_eq_none hkeyed] at hxa
      obtain ⟨row, hrow, rfl⟩ := List.mem_map.1 hxa
      obtain ⟨hrow, hjoins⟩ := List.mem_filter.1 hrow
      have hpair : (a, row.2) ∈ pairs join.predicate.joins lefts (rows.map (·.2)) :=
        mem_pairs.2 ⟨ha, List.mem_map_of_mem (hperm.mem_iff.1 hrow), hjoins⟩
      exact .inr ⟨_, hpair, Trial.eq_of_concat_error he⟩
    · rw [found, refusal_of_refuses hrefuses] at hxa
      obtain rfl := List.mem_singleton.1 hxa
      exact .inl ⟨(Except.error.inj he).symm, a, ha, hrefuses⟩

/-! ## Hash joins -/

namespace HashJoin

variable {join : HashJoin}

/-- The errors that a hash join may fail in before it tries a pair: a left tuple cannot be joined,
or one of either side has no room in its file. -/
def Rejects (join : HashJoin) (lefts rights : List Tuple) (e : Error) : Prop :=
  (e = .nonFiniteReal ∧ ∃ a ∈ lefts, join.predicate.Refuses a) ∨
    ∃ u ∈ lefts ++ rights, join.medium.takes u = false ∧ e = .tupleTooLarge u.length (2 ^ 32 - 1)

theorem refusal_of_refuses {a : Tuple} (h : join.predicate.Refuses a) :
    join.refusal .left a = some .nonFiniteReal := by
  simp only [refusal, keyOn, JoinPredicate.leftKey_of_refuses h]

theorem takes_of_refusal {side : Side} {t : Tuple} {k : Key} {e : Error}
    (hk : join.keyOn side t = .ok k) (h : join.refusal side t = some e) :
    join.medium.takes t = false ∧ e = .tupleTooLarge t.length (2 ^ 32 - 1) := by
  rw [refusal, hk] at h
  cases ht : join.medium.takes t with
  | true => simp [ht] at h
  | false =>
    simp only [ht, Bool.false_eq_true, if_false, Option.some.injEq] at h
    exact ⟨rfl, h.symm⟩

/-- Left tuples without a key are found while they are spread, those on the right have one. -/
theorem rejects_of_refusal (hc : join.predicate.comparator = .eq)
    (hj : join.predicate.Joinable lefts rights) {e : Error}
    (h : (lefts.findSome? (join.refusal .left)).or (rights.findSome? (join.refusal .right)) =
      some e) : join.Rejects lefts rights e := by
  have hn : join.predicate.comparator.needsValue = true := by rw [hc]; rfl
  rcases Option.or_eq_some_iff.1 h with hleft | ⟨-, hright⟩
  · obtain ⟨a, ha, hae⟩ := List.exists_of_findSome?_eq_some hleft
    rcases hj.keyed_or_refuses ha with hkeyed | hrefuses
    · obtain ⟨k, hk⟩ := hkeyed hn
      have hk' : join.keyOn .left a = .ok k := hk
      exact .inr ⟨a, List.mem_append_left rights ha, takes_of_refusal hk' hae⟩
    · rw [refusal_of_refuses hrefuses] at hae
      exact .inl ⟨(Option.some.inj hae).symm, a, ha, hrefuses⟩
  · obtain ⟨b, hb, hbe⟩ := List.exists_of_findSome?_eq_some hright
    obtain ⟨k, hk⟩ := hj.right hn b hb
    have hk' : join.keyOn .right b = .ok k := hk
    exact .inr ⟨b, List.mem_append_right lefts hb, takes_of_refusal hk' hbe⟩

variable {s : (join.operator left right).State} {l : left.State} {r : right.State}

theorem settles (hc : join.predicate.comparator = .eq)
    (hlstart : left.start db s.body.left = (.ok (), l)) (hl : left.Yields db none l lefts)
    (hrstart : right.start db s.body.right = (.ok (), r)) (hr : right.Yields db none r rights)
    (htakes : ∀ u ∈ lefts ++ rights, join.medium.takes u = true)
    (hj : join.predicate.Joinable lefts rights) (n : Nat) :
    join.predicate.Settles join.maxTupleSize lefts rights
      ((join.operator left right).collectTuples db s n).1 := by
  have hdrained : ((join.operator left right).collectTuples db s n).1 = _ :=
    (follows_spreading hc hl hr).collectTuples_fst (exists_start hlstart hrstart) n
  rw [hdrained, outcome]
  cases hstop : (lefts.findSome? (join.refusal .left)).or
      (rights.findSome? (join.refusal .right)) with
  | some e =>
    rcases rejects_of_refusal hc hj hstop with hrefuses | ⟨u, hu, hfull, -⟩
    · exact .inl hrefuses
    · rw [htakes u hu] at hfull
      cases hfull
  | none =>
    have hn : join.predicate.comparator.needsValue = true := by rw [hc]; rfl
    obtain ⟨hleft, -⟩ := Option.or_eq_none_iff.1 hstop
    have hkeyed : ∀ a ∈ lefts, join.predicate.Keyed a := by
      intro a ha
      rcases hj.keyed_or_refuses ha with hkeyed | hrefuses
      · exact hkeyed
      · have hae := List.findSome?_eq_none_iff.1 hleft a ha
        rw [refusal_of_refuses hrefuses] at hae
        cases hae
    have hperm : (join.candidates lefts rights).Perm (pairs join.predicate.joins lefts rights) :=
      candidates_perm hc (fun a ha => hkeyed a ha hn) (hj.right hn)
    rcases Trial.exists_made_or (Trial.concat join.maxTupleSize) (join.candidates lefts rights)
      with hmade | ⟨x, hx, e, he, hstop⟩
    · have hfits : ∀ x ∈ join.candidates lefts rights,
          (x.1 ++ x.2).length ≤ join.maxTupleSize := by
        intro x hx
        obtain ⟨made, hm⟩ := hmade x hx
        exact Trial.le_of_concat hm
      simp only [trial, Trial.of_concat hfits]
      exact ⟨hkeyed, fun x hx => hfits x (hperm.mem_iff.2 hx), hperm.map _⟩
    · simp only [trial, Trial.answer_of_stop hstop]
      exact .inr ⟨x, hperm.mem_iff.1 hx, Trial.eq_of_concat_error he⟩

/-- A tuple without room in its file keeps the join from every pair, also if it matches nothing. -/
theorem rejects (hc : join.predicate.comparator = .eq)
    (hlstart : left.start db s.body.left = (.ok (), l)) (hl : left.Yields db none l lefts)
    (hrstart : right.start db s.body.right = (.ok (), r)) (hr : right.Yields db none r rights)
    (hfull : ∃ u ∈ lefts ++ rights, join.medium.takes u = false)
    (hj : join.predicate.Joinable lefts rights) (n : Nat) :
    ∃ e, ((join.operator left right).collectTuples db s n).1 = .error e ∧
      join.Rejects lefts rights e := by
  have hdrained : ((join.operator left right).collectTuples db s n).1 = _ :=
    (follows_spreading hc hl hr).collectTuples_fst (exists_start hlstart hrstart) n
  rw [hdrained, outcome]
  cases hstop : (lefts.findSome? (join.refusal .left)).or
      (rights.findSome? (join.refusal .right)) with
  | some e => exact ⟨e, rfl, rejects_of_refusal hc hj hstop⟩
  | none =>
    obtain ⟨u, hu, hfull⟩ := hfull
    obtain ⟨hleft, hright⟩ := Option.or_eq_none_iff.1 hstop
    have htakes : join.medium.takes u = true := by
      rcases List.mem_append.1 hu with hu | hu
      · exact (refusal_eq_none_iff.1 (List.findSome?_eq_none_iff.1 hleft u hu)).2
      · exact (refusal_eq_none_iff.1 (List.findSome?_eq_none_iff.1 hright u hu)).2
    rw [htakes] at hfull
    cases hfull

end HashJoin

/-! ## Joins of tables -/

/-- Two joins of the same tuples agree: they give the same pairs, maybe in another order, or both
fail. If no pair that matches is too long, then they fail in the same error. -/
inductive JoinPredicate.Agree (p : JoinPredicate) (limit : Nat) (lefts rights : List Tuple) :
    Except Error (List Tuple) → Except Error (List Tuple) → Prop where
  | ok {tuples tuples' : List Tuple} (perm : tuples.Perm tuples') :
    Agree p limit lefts rights (.ok tuples) (.ok tuples')
  | error {e e' : Error} (allows : p.Allows limit lefts rights e)
      (allows' : p.Allows limit lefts rights e') :
    Agree p limit lefts rights (.error e) (.error e')

theorem JoinPredicate.Agree.exists_of_ok {p : JoinPredicate} {limit : Nat}
    {x : Except Error (List Tuple)} {tuples : List Tuple}
    (h : p.Agree limit lefts rights x (.ok tuples)) :
    ∃ tuples', x = .ok tuples' ∧ tuples'.Perm tuples := by
  cases h with
  | ok perm => exact ⟨_, rfl, perm⟩

theorem JoinPredicate.Agree.allows_of_error {p : JoinPredicate} {limit : Nat}
    {x : Except Error (List Tuple)} {e : Error} (h : p.Agree limit lefts rights x (.error e)) :
    p.Allows limit lefts rights e := by
  cases h with
  | error _ allows => exact allows

/-- What is in the way of one join is in the way of another. -/
theorem JoinPredicate.Settles.agree {p : JoinPredicate} {limit : Nat}
    {x y : Except Error (List Tuple)} (hx : p.Settles limit lefts rights x)
    (hy : p.Settles limit lefts rights y) : p.Agree limit lefts rights x y := by
  have hexclusive : ∀ tuples e, p.Settles limit lefts rights (.ok tuples) →
      p.Settles limit lefts rights (.error e) → False := by
    rintro tuples e ⟨hkeyed, hfits, -⟩ (⟨-, a, ha, hrefuses⟩ | ⟨x, hx, hlong, -⟩)
    · exact not_refuses_of_keyed (hkeyed a ha) hrefuses
    · have := hfits x hx
      omega
  cases x with
  | ok tuples =>
    cases y with
    | ok tuples' => exact .ok (hx.2.2.trans hy.2.2.symm)
    | error e => exact (hexclusive _ _ hx hy).elim
  | error e =>
    cases y with
    | ok tuples => exact (hexclusive _ _ hy hx).elim
    | error e' => exact .error hx hy

/-- What draining an operator comes to that was never opened. -/
def Operator.answer (op : Operator) (db : Database) : Except Error (List Tuple) :=
  (op.collectTuples db op.initial 0).1

variable {condition : Condition} {config : Config} {leftTable rightTable : Table}
  {scan rightScan : TableScan} {block : BlockJoin} {index : IndexJoin}

/-- Joins of two tables on one condition, by blocks of the right table and through an index on it.
The store does not fail or change, and the right table has rows. -/
structure TableJoins (db : Database) (condition : Condition) (config : Config)
    (leftTable rightTable : Table) (scan rightScan : TableScan) (block : BlockJoin)
    (index : IndexJoin) : Prop where
  reachable : db.store.Reachable
  scans : db.scanFaults = .never
  reads : db.readFaults = .never
  nonempty : rightTable.rows ≠ []
  left : ∃ name alias?, db.store.table name = .ok leftTable ∧
    TableScan.bind db.store name alias? = .ok scan
  right : ∃ name alias? column indexed, db.store.table name = .ok rightTable ∧
    (rightTable.indexes.lookup column).isSome = true ∧
    TableScan.bind db.store name alias? = .ok rightScan ∧
    IndexScan.bind db.store name column alias? = .ok indexed ∧
    IndexJoin.bind scan.schema indexed condition config = .ok index
  block : ∃ pages, BlockJoin.bind scan.schema rightScan condition pages config = .ok block

namespace TableJoins

variable (h : TableJoins db condition config leftTable rightTable scan rightScan block index)

include h

theorem exists_left : ∃ l, scan.operator.start db scan.operator.initial = (.ok (), l) ∧
    scan.operator.Yields db none l leftTable.tuples := by
  obtain ⟨_, _, hleft, hscan⟩ := h.left
  exact TableScan.exists_yields hscan hleft h.scans

theorem exists_right :
    ∃ r, rightScan.operator.start db rightScan.operator.initial = (.ok (), r) ∧
      rightScan.operator.Yields db none r rightTable.tuples := by
  obtain ⟨_, _, _, _, hright, -, hrightScan, -⟩ := h.right
  exact TableScan.exists_yields hrightScan hright h.scans

/-- Both joins have the same predicate, as they are bound to the same schemas. -/
theorem predicate_eq : index.predicate = block.predicate := by
  obtain ⟨_, _, _, indexed, -, -, hrightScan, hindexScan, hindex⟩ := h.right
  obtain ⟨_, hblock⟩ := h.block
  obtain ⟨hblockPred, -⟩ := BlockJoin.exists_of_bind hblock
  obtain ⟨hindexPred, -⟩ := IndexJoin.exists_of_bind hindex
  obtain ⟨t, ht, hrightEq⟩ := TableScan.exists_of_bind hrightScan
  obtain ⟨t', _, _, ht', -, hindexedEq⟩ := IndexScan.exists_of_bind hindexScan
  obtain rfl : t = t' := Except.ok.inj (ht.symm.trans ht')
  have hschema : indexed.schema = rightScan.schema := by rw [hindexedEq, hrightEq]
  rw [hschema] at hindexPred
  exact Except.ok.inj (hindexPred.symm.trans hblockPred)

/-- Rows of short texts can be joined: those on the right are in an index, so they have keys. -/
theorem joinable (hleftShort : leftTable.Short) (hrightShort : rightTable.Short) :
    block.predicate.Joinable leftTable.tuples rightTable.tuples := by
  obtain ⟨_, _, hleft, hscan⟩ := h.left
  obtain ⟨_, _, _, indexed, hright, hindexed, -, hindexScan, hindex⟩ := h.right
  obtain ⟨entries, hentries⟩ := Option.isSome_iff_exists.1 hindexed
  obtain ⟨hvalue, htype⟩ :=
    IndexJoin.rightValue_eq hrightShort.sound hright hentries hindexScan hindex
  obtain ⟨hpred, -⟩ := IndexJoin.exists_of_bind hindex
  rw [← h.predicate_eq]
  constructor
  · intro a ha
    obtain ⟨row, hrow, rfl⟩ := List.mem_map.1 ha
    obtain ⟨t, ht, heq⟩ := TableScan.exists_of_bind hscan
    obtain rfl : leftTable = t := Except.ok.inj (hleft.symm.trans ht)
    rw [heq] at hpred
    exact JoinPredicate.exists_leftValue hpred (hleftShort.isRow hrow _)
  · intro hn b hb
    obtain ⟨row, hrow, rfl⟩ := List.mem_map.1 hb
    obtain ⟨k, hk⟩ := (hrightShort.covers_of_lookup hentries).exists_key row hrow
    refine ⟨k, ?_⟩
    rw [JoinPredicate.rightKey, hvalue, ← htype hn]
    exact hk

theorem block_settles (hj : block.predicate.Joinable leftTable.tuples rightTable.tuples) :
    block.predicate.Settles config.maxTupleSize leftTable.tuples rightTable.tuples
      ((block.operator scan.operator).answer db) := by
  obtain ⟨_, _, _, _, hright, -, hrightScan, -⟩ := h.right
  obtain ⟨_, hblock⟩ := h.block
  obtain ⟨l, hlstart, hl⟩ := h.exists_left
  obtain ⟨-, rfl, -, hmax⟩ := BlockJoin.exists_of_bind hblock
  obtain ⟨_, -, heq⟩ := TableScan.exists_of_bind hrightScan
  have hreads : block.right.Reads db TableScan.initial rightTable.rows :=
    TableScan.reads_of_closed rfl (by rw [heq, hright]) h.scans
  rw [← hmax]
  exact BlockJoin.settles hlstart hl hreads hj h.nonempty 0

/-- Through an index the rows are found by their values, if their texts are short. -/
theorem index_settles (hrightShort : rightTable.Short)
    (hj : block.predicate.Joinable leftTable.tuples rightTable.tuples) :
    block.predicate.Settles config.maxTupleSize leftTable.tuples rightTable.tuples
      ((index.operator scan.operator).answer db) := by
  obtain ⟨_, _, _, indexed, hright, hindexed, -, hindexScan, hindex⟩ := h.right
  obtain ⟨entries, hentries⟩ := Option.isSome_iff_exists.1 hindexed
  obtain ⟨keyed, hordered⟩ := hrightShort.exists_ordered hentries
  obtain ⟨l, hlstart, hl⟩ := h.exists_left
  have hserves :=
    IndexJoin.serves h.reachable h.reads hright hentries hindexScan hindex hordered
  obtain ⟨-, -, rfl, hmax⟩ := IndexJoin.exists_of_bind hindex
  obtain ⟨_, _, _, -, -, heq⟩ := IndexScan.exists_of_bind hindexScan
  obtain ⟨r, hrstart⟩ : ∃ r, index.right.start db IndexScan.initial = (.ok (), r) := by
    rw [heq]
    exact IndexScan.exists_start hright hentries rfl
  rw [← h.predicate_eq] at hj ⊢
  rw [← hmax]
  exact IndexJoin.settles hserves hordered.perm hlstart hl hrstart hj 0

variable {partitions : Nat} {route : Key → Nat} {hash : HashJoin}

theorem hash_predicate_eq (hhash : HashJoin.bind scan.schema rightScan.schema condition partitions
    route config = .ok hash) : hash.predicate = block.predicate := by
  obtain ⟨_, hblock⟩ := h.block
  obtain ⟨hblockPred, -⟩ := BlockJoin.exists_of_bind hblock
  obtain ⟨hhashPred, -⟩ := HashJoin.exists_of_bind hhash
  exact Except.ok.inj (hhashPred.symm.trans hblockPred)

theorem hash_settles (hhash : HashJoin.bind scan.schema rightScan.schema condition partitions route
      config = .ok hash)
    (htakes : ∀ u ∈ leftTable.tuples ++ rightTable.tuples, config.medium.takes u = true)
    (hj : block.predicate.Joinable leftTable.tuples rightTable.tuples) :
    block.predicate.Settles config.maxTupleSize leftTable.tuples rightTable.tuples
      ((hash.operator scan.operator rightScan.operator).answer db) := by
  obtain ⟨l, hlstart, hl⟩ := h.exists_left
  obtain ⟨r, hrstart, hr⟩ := h.exists_right
  obtain ⟨-, hc, hmedium, hmax⟩ := HashJoin.exists_of_bind hhash
  rw [← h.hash_predicate_eq hhash] at hj ⊢
  rw [← hmedium] at htakes
  rw [← hmax]
  exact HashJoin.settles hc hlstart hl hrstart hr htakes hj 0

theorem hash_rejects (hhash : HashJoin.bind scan.schema rightScan.schema condition partitions route
      config = .ok hash)
    (hfull : ∃ u ∈ leftTable.tuples ++ rightTable.tuples, config.medium.takes u = false)
    (hj : block.predicate.Joinable leftTable.tuples rightTable.tuples) :
    ∃ e, (hash.operator scan.operator rightScan.operator).answer db = .error e ∧
      hash.Rejects leftTable.tuples rightTable.tuples e := by
  obtain ⟨l, hlstart, hl⟩ := h.exists_left
  obtain ⟨r, hrstart, hr⟩ := h.exists_right
  obtain ⟨-, hc, hmedium, -⟩ := HashJoin.exists_of_bind hhash
  rw [← h.hash_predicate_eq hhash] at hj
  rw [← hmedium] at hfull
  exact HashJoin.rejects hc hlstart hl hrstart hr hfull hj 0

end TableJoins

/-- **Joins of two tables agree**, whatever they hold and however the joins are set up, if their
texts have fewer than 2 ^ 32 bytes each: by blocks, through an index on the right table, and, where
the condition is an equality, by hashing. A hash join with files has no room for rows of 2 ^ 32
bytes or more and fails if there is one. -/
theorem joins_agree (h : TableJoins db condition config leftTable rightTable scan rightScan block
      index) (hleftShort : leftTable.Short) (hrightShort : rightTable.Short) :
    block.predicate.Agree config.maxTupleSize leftTable.tuples rightTable.tuples
        ((block.operator scan.operator).answer db) ((index.operator scan.operator).answer db) ∧
      ∀ partitions route hash, HashJoin.bind scan.schema rightScan.schema condition partitions
          route config = .ok hash →
        ((∀ u ∈ leftTable.tuples ++ rightTable.tuples, config.medium.takes u = true) →
          block.predicate.Agree config.maxTupleSize leftTable.tuples rightTable.tuples
            ((block.operator scan.operator).answer db)
            ((hash.operator scan.operator rightScan.operator).answer db)) ∧
        ((∃ u ∈ leftTable.tuples ++ rightTable.tuples, config.medium.takes u = false) →
          ∃ e, (hash.operator scan.operator rightScan.operator).answer db = .error e ∧
            hash.Rejects leftTable.tuples rightTable.tuples e) := by
  have hjoinable := h.joinable hleftShort hrightShort
  have hblock := h.block_settles hjoinable
  refine ⟨hblock.agree (h.index_settles hrightShort hjoinable),
    fun partitions route hash hhash => ⟨fun htakes => ?_, fun hfull => ?_⟩⟩
  · exact hblock.agree (h.hash_settles hhash htakes hjoinable)
  · exact h.hash_rejects hhash hfull hjoinable

/-- The pairs of equal integers of one table, by blocks of it. -/
def BlockJoin.equalIntegers : BlockJoin where
  right := ⟨"r", [.integer "y.b"]⟩
  condition := ⟨"x.b", .eq, .column "y.b"⟩
  predicate := ⟨⟨[.integer "x.b"], 4096⟩, ⟨[.integer "y.b"], 4096⟩, 0, 0, .eq, .integer⟩
  budget := 4
  maxTupleSize := 4096
  schema := [.integer "x.b", .integer "y.b"]

/-- The same through its index. -/
def IndexJoin.equalIntegers : IndexJoin where
  right := ⟨"r", "b", .integer "y.b", [.integer "y.b"]⟩
  condition := ⟨"x.b", .eq, .column "y.b"⟩
  predicate := BlockJoin.equalIntegers.predicate
  maxTupleSize := 4096
  schema := [.integer "x.b", .integer "y.b"]

theorem joins_agree_integers :
    BlockJoin.equalIntegers.predicate.Agree 4096 IndexJoin.integersTable.tuples
      IndexJoin.integersTable.tuples
      ((BlockJoin.equalIntegers.operator (TableScan.operator ⟨"r", [.integer "x.b"]⟩)).answer
        { store := IndexJoin.integersStore })
      ((IndexJoin.equalIntegers.operator (TableScan.operator ⟨"r", [.integer "x.b"]⟩)).answer
        { store := IndexJoin.integersStore }) := by
  have hjoins : TableJoins { store := IndexJoin.integersStore } ⟨"x.b", .eq, .column "y.b"⟩
      { pageSize := 4 } IndexJoin.integersTable IndexJoin.integersTable ⟨"r", [.integer "x.b"]⟩
      BlockJoin.equalIntegers.right BlockJoin.equalIntegers IndexJoin.equalIntegers :=
    { reachable := IndexJoin.reachable_integersStore
      scans := rfl
      reads := rfl
      nonempty := List.cons_ne_nil _ _
      left := ⟨"r", some "x", rfl, rfl⟩
      right := ⟨"r", some "y", "b", IndexJoin.equalIntegers.right, rfl, rfl, rfl, rfl, rfl⟩
      block := ⟨1, rfl⟩ }
  exact (joins_agree hjoins IndexJoin.short_integersTable IndexJoin.short_integersTable).1

/-- The join of empty texts by blocks. -/
def BlockJoin.emptyTexts : BlockJoin where
  right := ⟨"r", [.text "r.s" (2 ^ 32)]⟩
  condition := ⟨"l.a", .eq, .column "r.s"⟩
  predicate := IndexJoin.emptyTexts.predicate
  budget := 4096
  maxTupleSize := 2 ^ 33
  schema := [.text "l.a" 0, .text "r.s" (2 ^ 32)]

/-- The same by hashing, with files. -/
def HashJoin.emptyTexts : HashJoin where
  condition := ⟨"l.a", .eq, .column "r.s"⟩
  predicate := IndexJoin.emptyTexts.predicate
  partitions := 1
  positive := Nat.one_pos
  route := fun _ => 0
  medium := .disk
  maxTupleSize := 2 ^ 33
  schema := [.text "l.a" 0, .text "r.s" (2 ^ 32)]

variable {bytes : List UInt8}

theorem tableJoins_emptyTexts (hroom : bytes.length ≤ 2 ^ 32) :
    TableJoins { store := .overlong bytes } ⟨"l.a", .eq, .column "r.s"⟩
      { maxTupleSize := 2 ^ 33 } .emptyText (.overlong bytes) ⟨"l", [.text "l.a" 0]⟩
      ⟨"r", [.text "r.s" (2 ^ 32)]⟩ .emptyTexts .emptyTexts where
  reachable := Store.reachable_overlong hroom
  scans := rfl
  reads := rfl
  nonempty := List.cons_ne_nil _ _
  left := ⟨"l", none, rfl, rfl⟩
  right := ⟨"r", none, "s", IndexJoin.emptyTexts.right, rfl, rfl, rfl, rfl, rfl⟩
  block := ⟨1, rfl⟩

/-- The join by blocks reads a text of 2 ^ 32 bytes as the empty one. -/
theorem BlockJoin.joinable_emptyTexts (hlength : bytes.length = 2 ^ 32) :
    emptyTexts.predicate.Joinable Table.emptyText.tuples (Table.overlong bytes).tuples where
  left := List.forall_mem_singleton.2 ⟨.text [], rfl, rfl⟩
  right _ := List.forall_mem_singleton.2 ⟨.text [], IndexJoin.rightKey_emptyTexts hlength⟩

/-- Through the index nothing is joined with it. -/
theorem IndexJoin.answer_emptyTexts (hlength : bytes.length = 2 ^ 32) :
    (emptyTexts.operator (TableScan.operator ⟨"l", [.text "l.a" 0]⟩)).answer
      { store := .overlong bytes } = .ok [] := by
  let db : Database := { store := .overlong bytes }
  have hscan : TableScan.bind db.store "l" none = .ok ⟨"l", [.text "l.a" 0]⟩ := rfl
  have htable : db.store.table "l" = .ok .emptyText := rfl
  obtain ⟨l, hlstart, hl⟩ := TableScan.exists_yields hscan htable rfl
  obtain ⟨r, hrstart⟩ : ∃ r, emptyTexts.right.start db IndexScan.initial = (.ok (), r) := ⟨_, rfl⟩
  obtain ⟨-, -, -, -, hopened, -⟩ := IndexScan.exists_of_start hrstart
  exact (yields_emptyTexts hlength hl hopened).collectTuples_fst (exists_start hlstart hrstart) 0

theorem JoinPredicate.not_refuses_emptyTexts : ∀ a ∈ Table.emptyText.tuples,
    ¬IndexJoin.emptyTexts.predicate.Refuses a := by
  intro a ha
  obtain rfl := List.mem_singleton.1 ha
  rintro ⟨-, v, hv, -, hfinite⟩
  obtain rfl := Except.ok.inj hv
  cases hfinite

theorem HashJoin.bind_emptyTexts :
    bind [.text "l.a" 0] [.text "r.s" (2 ^ 32)] ⟨"l.a", .eq, .column "r.s"⟩ 1 (fun _ => 0)
      { maxTupleSize := 2 ^ 33 } = .ok emptyTexts := rfl

/-- With files, the row of the longest text that can be read back is not taken. -/
theorem HashJoin.answer_emptyTexts (hlength : bytes.length = 2 ^ 32 - 1) :
    ∃ length, (emptyTexts.operator (TableScan.operator ⟨"l", [.text "l.a" 0]⟩)
        (TableScan.operator ⟨"r", [.text "r.s" (2 ^ 32)]⟩)).answer { store := .overlong bytes } =
      .error (.tupleTooLarge length (2 ^ 32 - 1)) := by
  have hshort : bytes.length < 2 ^ 32 := by
    rw [hlength]
    decide
  have hjoins := tableJoins_emptyTexts (Nat.le_of_lt hshort)
  have hjoinable := hjoins.joinable Table.short_emptyText (Table.short_overlong hshort)
  have hfull : ∃ u ∈ Table.emptyText.tuples ++ (Table.overlong bytes).tuples,
      Spill.Medium.disk.takes u = false :=
    ⟨_, List.mem_append_right _ List.mem_cons_self, takes_longest hlength⟩
  obtain ⟨e, he, ⟨-, a, ha, hrefuses⟩ | ⟨u, -, -, rfl⟩⟩ :=
    hjoins.hash_rejects bind_emptyTexts hfull hjoinable
  · exact (JoinPredicate.not_refuses_emptyTexts a ha hrefuses).elim
  · exact ⟨_, he⟩

/-- The joins do not always agree: a text of 2 ^ 32 bytes is not found through an index under the
text that it is read to be, and a row of 2 ^ 32 bytes or more has no room in a file. -/
theorem joins_not_always_agree :
    (¬∀ (db : Database) (condition : Condition) (config : Config) (leftTable rightTable : Table)
        (scan rightScan : TableScan) (block : BlockJoin) (index : IndexJoin),
      TableJoins db condition config leftTable rightTable scan rightScan block index →
      block.predicate.Agree config.maxTupleSize leftTable.tuples rightTable.tuples
        ((block.operator scan.operator).answer db) ((index.operator scan.operator).answer db)) ∧
    ¬∀ (db : Database) (condition : Condition) (config : Config) (leftTable rightTable : Table)
        (scan rightScan : TableScan) (block : BlockJoin) (index : IndexJoin) (partitions : Nat)
        (route : Key → Nat) (hash : HashJoin),
      TableJoins db condition config leftTable rightTable scan rightScan block index →
      leftTable.Short → rightTable.Short →
      HashJoin.bind scan.schema rightScan.schema condition partitions route config = .ok hash →
      block.predicate.Agree config.maxTupleSize leftTable.tuples rightTable.tuples
        ((block.operator scan.operator).answer db)
        ((hash.operator scan.operator rightScan.operator).answer db) := by
  constructor
  · intro hall
    obtain ⟨bytes, hlength⟩ : ∃ bytes : List UInt8, bytes.length = 2 ^ 32 :=
      ⟨List.replicate (2 ^ 32) 0, List.length_replicate⟩
    have hjoins := tableJoins_emptyTexts (Nat.le_of_eq hlength)
    have hagree := hall _ _ _ _ _ _ _ _ _ hjoins
    rw [IndexJoin.answer_emptyTexts hlength] at hagree
    obtain ⟨tuples, htuples, hnone⟩ := hagree.exists_of_ok
    have hsettles := hjoins.block_settles (BlockJoin.joinable_emptyTexts hlength)
    rw [htuples] at hsettles
    -- the join by blocks gives the pair
    obtain ⟨-, -, hpairs⟩ := hsettles
    have hpair : (⟨[0, 0, 0, 0]⟩, ⟨Value.encode (.text bytes)⟩) ∈
        pairs BlockJoin.emptyTexts.predicate.joins Table.emptyText.tuples
          (Table.overlong bytes).tuples :=
      mem_pairs.2 ⟨List.mem_cons_self, List.mem_cons_self, IndexJoin.joins_emptyTexts hlength⟩
    have hmem := (hnone.symm.trans hpairs).mem_iff.2 (List.mem_map_of_mem hpair)
    exact List.not_mem_nil hmem
  · intro hall
    obtain ⟨bytes, hlength⟩ : ∃ bytes : List UInt8, bytes.length = 2 ^ 32 - 1 :=
      ⟨List.replicate (2 ^ 32 - 1) 0, List.length_replicate⟩
    have hshort : bytes.length < 2 ^ 32 := by
      rw [hlength]
      decide
    have hjoins := tableJoins_emptyTexts (Nat.le_of_lt hshort)
    have hagree := hall _ _ _ _ _ _ _ _ _ _ _ _ hjoins Table.short_emptyText
      (Table.short_overlong hshort) HashJoin.bind_emptyTexts
    obtain ⟨length, hanswer⟩ := HashJoin.answer_emptyTexts hlength
    rw [hanswer] at hagree
    -- no join but that one fails in the length of a file's word
    rcases hagree.allows_of_error with ⟨he, -⟩ | ⟨x, -, -, he⟩
    · cases he
    · cases he

end QueryEngine
