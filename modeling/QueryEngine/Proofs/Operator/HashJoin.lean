import QueryEngine.Operator.HashJoin
import QueryEngine.Proofs.Multimap
import QueryEngine.Proofs.Operator.Leaf
import QueryEngine.Proofs.Operator.Trial
import QueryEngine.Proofs.Pairs
import QueryEngine.Proofs.Spill
import QueryEngine.Proofs.Tuple.LongTexts

/-!
# What a hash join yields

The tuples of both sides are spread first. That refuses a tuple without a key, and one too long for
the file of its partition. Then the partitions are joined one by one.

* `HashJoin.foldlM_place`: spreading one side, from any point on.
* `HashJoin.follows_spreading`: a join spreads both sides and tries the pairs of the partitions.
* `HashJoin.candidates_perm`: these are the pairs of the two children that match.
-/

namespace QueryEngine.HashJoin

open Spill

variable {join : HashJoin} {side : Side} {t : Tuple} {k : Key}

/-! ## Spreading -/

/-- The key that a tuple of one side is joined by. -/
def keyOn (join : HashJoin) : Side → Tuple → Except Error Key
  | .left => join.predicate.leftKey
  | .right => join.predicate.rightKey

theorem keyOn_eq (join : HashJoin) (side : Side) (t : Tuple) :
    join.keyOn side t =
      (do Key.typed (← join.predicate.valueOn side t) join.predicate.keyType) := by
  cases side <;> rfl

/-- The tuples of one side that go to a partition. -/
def share (join : HashJoin) (side : Side) (p : Fin join.partitions) (tuples : List Tuple) :
    List Tuple :=
  tuples.filter fun t => (join.keyOn side t).toOption.map join.slot == some p

/-- The partitions over which the tuples of one side are spread. -/
def shares (join : HashJoin) (side : Side) (tuples : List Tuple) : join.Partitions :=
  .ofFn fun p => .ofTuples join.medium (join.share side p tuples)

/-- Why a tuple of one side cannot be spread. -/
def refusal (join : HashJoin) (side : Side) (t : Tuple) : Option Error :=
  match join.keyOn side t with
  | .error e => some e
  | .ok _ => if join.medium.takes t then none else some (.tupleTooLarge t.length (2 ^ 32 - 1))

theorem getElem_shares {tuples : List Tuple} {i : Nat} (hi : i < join.partitions) :
    (join.shares side tuples)[i] = .ofTuples join.medium (join.share side ⟨i, hi⟩ tuples) :=
  Vector.getElem_ofFn hi

theorem get_shares {tuples : List Tuple} (p : Fin join.partitions) :
    (join.shares side tuples).get p = .ofTuples join.medium (join.share side p tuples) :=
  getElem_shares p.isLt

theorem noTuples_eq (join : HashJoin) (side : Side) : join.noTuples = join.shares side [] := by
  apply Vector.ext
  intro i hi
  rw [noTuples, Vector.getElem_replicate, getElem_shares]
  exact (Partition.ofTuples_nil _).symm

theorem place_of_keyOn (parts : join.Partitions) (hk : join.keyOn side t = .ok k) :
    join.place side parts t =
      (parts.get (join.slot k)).push t >>= fun part =>
        .ok (parts.set (join.slot k) part (join.slot k).isLt) := by
  rw [keyOn_eq] at hk
  obtain ⟨v, hv, hk⟩ := bind_eq_ok_iff.1 hk
  rw [place, hv, ok_bind, hk]
  rfl

theorem place_of_keyOn_error (parts : join.Partitions) {e : Error}
    (hk : join.keyOn side t = .error e) : join.place side parts t = .error e := by
  rw [keyOn_eq] at hk
  rcases bind_eq_error_iff.1 hk with hv | ⟨v, hv, hk⟩
  · rw [place, hv, error_bind]
  · rw [place, hv, ok_bind, hk, error_bind]

theorem share_append (p : Fin join.partitions) (done : List Tuple)
    (hk : join.keyOn side t = .ok k) :
    join.share side p (done ++ [t]) =
      join.share side p done ++ if join.slot k = p then [t] else [] := by
  rw [share, List.filter_append]
  by_cases h : join.slot k = p <;> simp [share, hk, Except.toOption, h]

theorem place_eq_ok {done : List Tuple} (hk : join.keyOn side t = .ok k)
    (ht : join.medium.takes t = true) :
    join.place side (join.shares side done) t = .ok (join.shares side (done ++ [t])) := by
  have hpush : ((join.shares side done).get (join.slot k)).push t =
      .ok (.ofTuples join.medium (join.share side (join.slot k) done ++ [t])) := by
    rw [get_shares]
    exact Partition.push_ofTuples ht
  rw [place_of_keyOn _ hk, hpush, ok_bind]
  refine congrArg _ (Vector.ext fun i hi => ?_)
  rw [Vector.getElem_set, getElem_shares, getElem_shares, share_append _ _ hk]
  by_cases h : join.slot k = ⟨i, hi⟩
  · rw [if_pos (congrArg Fin.val h), if_pos h]
    exact congrArg (fun p => Partition.ofTuples join.medium (join.share side p done ++ [t])) h
  · rw [if_neg fun hi => h (Fin.ext hi), if_neg h, List.append_nil]

theorem place_eq_error {done : List Tuple} {e : Error} (h : join.refusal side t = some e) :
    join.place side (join.shares side done) t = .error e := by
  unfold refusal at h
  split at h
  · rename_i hk
    rw [place_of_keyOn_error _ hk, Option.some.inj h]
  · rename_i k hk
    split at h
    · cases h
    · rename_i ht
      have hpush : ((join.shares side done).get (join.slot k)).push t =
          .error (.tupleTooLarge t.length (2 ^ 32 - 1)) := by
        rw [get_shares]
        exact Partition.push_eq_error (Bool.eq_false_iff.2 ht)
      rw [place_of_keyOn _ hk, hpush, error_bind, Option.some.inj h]

theorem refusal_eq_none_iff :
    join.refusal side t = none ↔ (∃ k, join.keyOn side t = .ok k) ∧ join.medium.takes t = true := by
  unfold refusal
  cases join.keyOn side t with
  | error e => simp
  | ok k => simp

/-- Spreading one side ends at the first tuple that is refused. -/
theorem foldlM_place (tuples done : List Tuple) :
    tuples.foldlM (join.place side) (join.shares side done) =
      match tuples.findSome? (join.refusal side) with
      | some e => .error e
      | none => .ok (join.shares side (done ++ tuples)) := by
  induction tuples generalizing done with
  | nil => simp [pure, Except.pure]
  | cons t tuples ih =>
    rw [List.foldlM_cons, List.findSome?_cons]
    cases h : join.refusal side t with
    | some e => rw [place_eq_error h, error_bind]
    | none =>
      obtain ⟨⟨k, hk⟩, ht⟩ := refusal_eq_none_iff.1 h
      rw [place_eq_ok hk ht, ok_bind, ih, List.append_assoc, List.singleton_append]

/-! ## Tables -/

/-- The table holds tuples of one side under their keys, in their order. -/
def Holds (join : HashJoin) (side : Side) (table : Multimap Tuple) (tuples : List Tuple) : Prop :=
  table.keyType = join.predicate.keyType ∧
    ∀ k, table.bucket k = tuples.filter fun t => (join.keyOn side t).toOption == some k

theorem holds_empty (join : HashJoin) (side : Side) :
    join.Holds side (.empty join.predicate.keyType) [] :=
  ⟨rfl, Multimap.bucket_empty _⟩

theorem Holds.insert {table : Multimap Tuple} {tuples : List Tuple}
    (h : join.Holds side table tuples) (hk : join.keyOn side t = .ok k) :
    ∃ table', (do table.insert (← join.predicate.valueOn side t) t) = .ok table' ∧
      join.Holds side table' (tuples ++ [t]) := by
  obtain ⟨v, hv, hk'⟩ := bind_eq_ok_iff.1 (keyOn_eq join side t ▸ hk)
  rw [← h.1] at hk'
  obtain ⟨table', hinsert, htype, hbucket⟩ := Multimap.bucket_insert hk' t
  refine ⟨table', by rw [hv, ok_bind, hinsert], htype.trans h.1, fun l => ?_⟩
  rw [hbucket, List.filter_append, h.2, h.2]
  by_cases hl : l = k
  · subst hl
    simp [hk, Except.toOption]
  · simp [hk, Except.toOption, hl, Ne.symm hl]

/-- A table can be made of tuples with keys. -/
theorem Holds.exists_foldlM {tuples done : List Tuple} {table : Multimap Tuple}
    (h : join.Holds side table done) (hkeys : ∀ t ∈ tuples, ∃ k, join.keyOn side t = .ok k) :
    ∃ table', tuples.foldlM (fun table t => do
        table.insert (← join.predicate.valueOn side t) t) table = .ok table' ∧
      join.Holds side table' (done ++ tuples) := by
  induction tuples generalizing done table with
  | nil => exact ⟨table, rfl, (List.append_nil done).symm ▸ h⟩
  | cons t tuples ih =>
    obtain ⟨k, hk⟩ := hkeys t List.mem_cons_self
    obtain ⟨table', hinsert, h'⟩ := h.insert hk
    obtain ⟨table'', hrest, h''⟩ := ih h' fun u hu => hkeys u (List.mem_cons_of_mem t hu)
    refine ⟨table'', by rw [List.foldlM_cons, hinsert, ok_bind, hrest], ?_⟩
    rwa [List.append_assoc] at h''

/-! ## Joining a partition -/

/-- The pair of a tuple that was read with one from the table, left tuple first. -/
def leftFirst : Side → Tuple → Tuple → Tuple × Tuple
  | .left, probe, found => (found, probe)
  | .right, probe, found => (probe, found)

theorem pair_eq (join : HashJoin) (build : Side) (probe found : Tuple) :
    join.pair build probe found =
      (leftFirst build probe found).1.joinWithin join.maxTupleSize
        (leftFirst build probe found).2 := by
  cases build <;> rfl

/-- Whether a tuple that was read and one from the table match. -/
def joinsFound (join : HashJoin) (build : Side) (probe found : Tuple) : Bool :=
  join.predicate.joins (leftFirst build probe found).1 (leftFirst build probe found).2

theorem joinsFound_iff {build : Side} {probe found : Tuple} {k k' : Key}
    (hc : join.predicate.comparator = .eq) (hk : join.keyOn build.other probe = .ok k)
    (hk' : join.keyOn build found = .ok k') :
    join.joinsFound build probe found = true ↔ k' = k := by
  cases build with
  | left => exact JoinPredicate.joins_iff_of_eq hk' hk hc
  | right => exact (JoinPredicate.joins_iff_of_eq hk hk' hc).trans eq_comm

/-- What is found for a tuple are the tuples that match it. -/
theorem matchesOf_eq {active : Active} {builds : List Tuple}
    (hc : join.predicate.comparator = .eq) (h : join.Holds active.build active.table builds)
    (hkeys : ∀ t ∈ builds, ∃ k, join.keyOn active.build t = .ok k)
    (hk : join.keyOn active.build.other t = .ok k) :
    join.matchesOf active t = .ok (builds.filter (join.joinsFound active.build t)) := by
  obtain ⟨v, hv, hk'⟩ := bind_eq_ok_iff.1 (keyOn_eq join active.build.other t ▸ hk)
  rw [← h.1] at hk'
  rw [matchesOf, hv, ok_bind, Multimap.get_of_typed hk', h.2]
  refine congrArg _ (List.filter_congr fun b hb => ?_)
  obtain ⟨l, hl⟩ := hkeys b hb
  rw [Bool.eq_iff_iff, joinsFound_iff hc hk hl, hl]
  simp [Except.toOption]

/-- The pairs that come of reading tuples against a table, as they are tried. -/
def tries (join : HashJoin) (build : Side) (builds probes : List Tuple) : List (Tuple × Tuple) :=
  probes.flatMap fun t => (builds.filter (join.joinsFound build t)).map (leftFirst build t)

/-- The pairs that come of a partition, as they are tried. -/
def block (join : HashJoin) (lefts rights : List Tuple) : List (Tuple × Tuple) :=
  if lefts.length ≤ rights.length then
    rights.flatMap fun r => (lefts.filter (join.predicate.joins · r)).map (·, r)
  else lefts.flatMap fun l => (rights.filter (join.predicate.joins l ·)).map (l, ·)

theorem block_perm (join : HashJoin) (lefts rights : List Tuple) :
    (join.block lefts rights).Perm (pairs join.predicate.joins lefts rights) := by
  unfold block
  split
  · exact (pairs_perm_swap _ _ _).symm
  · exact .refl _

/-- Loading a partition with tuples on both sides gives a table of the one side and a reader of the
other, and their pairs are those of the partition. -/
theorem exists_load {lefts rights : List Tuple} (hl : ∀ t ∈ lefts, join.refusal .left t = none)
    (hr : ∀ t ∈ rights, join.refusal .right t = none) :
    (join.load (.ofTuples join.medium lefts) (.ofTuples join.medium rights) = .ok none ∧
        join.block lefts rights = []) ∨
      ∃ build table builds probes,
        join.load (.ofTuples join.medium lefts) (.ofTuples join.medium rights) =
          .ok (some ⟨build, table, .ofTuples join.medium probes, none⟩) ∧
        join.block lefts rights = join.tries build builds probes ∧
        join.Holds build table builds ∧ (∀ t ∈ builds, join.refusal build t = none) ∧
        ∀ t ∈ probes, join.refusal build.other t = none := by
  have htable : ∀ side tuples, (∀ t ∈ tuples, join.refusal side t = none) →
      ∃ table, (Reader.ofTuples join.medium tuples).fold (fun table t => do
          table.insert (← join.predicate.valueOn side t) t) (.empty join.predicate.keyType) =
        .ok table ∧ join.Holds side table tuples := by
    intro side tuples h
    rw [Reader.fold_ofTuples _ _ fun t ht => (refusal_eq_none_iff.1 (h t ht)).2]
    exact (holds_empty join side).exists_foldlM fun t ht => (refusal_eq_none_iff.1 (h t ht)).1
  cases lefts with
  | nil => exact .inl ⟨rfl, by simp [block]⟩
  | cons l lefts =>
    cases rights with
    | nil => exact .inl ⟨by simp [load, Partition.isEmpty], by simp [block]⟩
    | cons r rights =>
      refine .inr ?_
      simp only [load, Partition.isEmpty, Partition.count_ofTuples, List.length_cons, block]
      by_cases hle : lefts.length + 1 ≤ rights.length + 1
      · obtain ⟨table, hload, hholds⟩ := htable .left _ hl
        refine ⟨.left, table, l :: lefts, r :: rights, ?_, ?_, hholds, hl, hr⟩
        · simp [hle, hload, Reader.reader_ofTuples]
        · rw [if_pos hle]
          rfl
      · obtain ⟨table, hload, hholds⟩ := htable .right _ hr
        refine ⟨.right, table, r :: rights, l :: lefts, ?_, ?_, hholds, hr, hl⟩
        · simp [hle, hload, Reader.reader_ofTuples]
        · rw [if_neg hle]
          rfl

/-! ## The run -/

variable {left right : Operator} {db : Database}

/-- The pair that is tried next. -/
def tried? {σ τ : Type} (s : State σ τ) : Option (Tuple × Tuple) :=
  match s.phase with
  | .joining _ (some ⟨build, _, _, some (t, found :: _)⟩) => some (leftFirst build t found)
  | _ => none

/-- What comes of pairs that match. -/
abbrev trial (join : HashJoin) : List (Tuple × Tuple) → Trial (Tuple × Tuple) :=
  Trial.of (Trial.concat join.maxTupleSize)

variable {l : left.State} {r : right.State} {pending : List (Partition × Partition)}
  {build : Side} {table : Multimap Tuple} {rest : List (Tuple × Tuple)}

/-- The pairs of a tuple that was read come first. -/
theorem follows_found {reader : Reader} (found : List Tuple)
    (h : (join.machine left right).Follows db tried?
      ⟨l, r, .joining pending (some ⟨build, table, reader, some (t, [])⟩)⟩ (join.trial rest)) :
    (join.machine left right).Follows db tried?
      ⟨l, r, .joining pending (some ⟨build, table, reader, some (t, found)⟩)⟩
      (join.trial (found.map (leftFirst build t) ++ rest)) := by
  induction found with
  | nil => exact h
  | cons f found ih =>
    rw [List.map_cons, List.cons_append]
    refine .of_try rfl fun n => ⟨_, n, ?_, ih⟩
    show join.step left right db _ n = _
    simp only [step, pair_eq, Trial.concat]
    cases Tuple.joinWithin join.maxTupleSize _ _ <;> rfl

/-- When all that was found for the last tuple is used up, one more tuple is read. -/
theorem step_reading {active : Active} (h : ∀ t found, active.probe = some (t, found) → found = [])
    (n : Nat) :
    join.step left right db ⟨l, r, .joining pending (some active)⟩ n =
      join.readProbe pending active ⟨l, r, .joining pending (some active)⟩ n := by
  unfold step
  split <;> simp_all
  split
  · rename_i hp
    exact absurd (h _ _ hp) (by simp)
  · rfl

theorem tried?_reading {σ τ : Type} {l : σ} {r : τ} {active : Active}
    (h : ∀ t found, active.probe = some (t, found) → found = []) :
    tried? (⟨l, r, .joining pending (some active)⟩ : State σ τ) = none := by
  obtain ⟨build, table, reader, probe⟩ := active
  cases probe with
  | none => rfl
  | some p =>
    obtain ⟨t, found⟩ := p
    obtain rfl := h t found rfl
    rfl

/-- Then come those of the tuples still to be read. -/
theorem follows_probes {builds probes : List Tuple} {probe : Option (Tuple × List Tuple)}
    (hc : join.predicate.comparator = .eq) (hholds : join.Holds build table builds)
    (hbuilds : ∀ t ∈ builds, join.refusal build t = none)
    (hprobes : ∀ t ∈ probes, join.refusal build.other t = none)
    (hidle : ∀ t found, probe = some (t, found) → found = [])
    (h : (join.machine left right).Follows db tried? ⟨l, r, .joining pending none⟩
      (join.trial rest)) :
    (join.machine left right).Follows db tried?
      ⟨l, r, .joining pending (some ⟨build, table, .ofTuples join.medium probes, probe⟩)⟩
      (join.trial (join.tries build builds probes ++ rest)) := by
  induction probes generalizing probe with
  | nil =>
    refine .of_again (tried?_reading hidle) fun n => ⟨_, n, (step_reading hidle n).trans ?_, h⟩
    simp only [readProbe, Reader.next_ofTuples_nil]
    rfl
  | cons t probes ih =>
    obtain ⟨⟨k, hk⟩, ht⟩ := refusal_eq_none_iff.1 (hprobes t List.mem_cons_self)
    have hbuildKeys := fun b hb => (refusal_eq_none_iff.1 (hbuilds b hb)).1
    have hfound : join.matchesOf
        ⟨build, table, .ofTuples join.medium (t :: probes), probe⟩ t = _ :=
      matchesOf_eq hc hholds hbuildKeys hk
    have hrest := @ih (some (t, [])) (fun u hu => hprobes u (List.mem_cons_of_mem t hu))
      fun _ _ heq => by simp_all
    rw [tries, List.flatMap_cons, List.append_assoc]
    refine .of_again (tried?_reading hidle) fun n =>
      ⟨_, n, (step_reading hidle n).trans ?_, follows_found _ hrest⟩
    simp only [readProbe, Reader.next_ofTuples _ ht, hfound]
    rfl

/-- Some of the partitions over which two sides are spread. -/
def parts (join : HashJoin) (lefts rights : List Tuple) (ps : List (Fin join.partitions)) :
    List (Partition × Partition) :=
  ps.map fun p => (.ofTuples join.medium (join.share .left p lefts),
    .ofTuples join.medium (join.share .right p rights))

/-- The pairs of the partitions that are to come, one partition after the other. -/
theorem follows_parts (hc : join.predicate.comparator = .eq) {lefts rights : List Tuple}
    (hl : ∀ t ∈ lefts, join.refusal .left t = none)
    (hr : ∀ t ∈ rights, join.refusal .right t = none) (ps : List (Fin join.partitions)) :
    (join.machine left right).Follows db tried?
      ⟨l, r, .joining (join.parts lefts rights ps) none⟩
      (join.trial (ps.flatMap fun p =>
        join.block (join.share .left p lefts) (join.share .right p rights))) := by
  induction ps with
  | nil => exact .of_ending rfl fun n => ⟨_, n, rfl⟩
  | cons p ps ih =>
    rw [parts, List.map_cons, List.flatMap_cons, ← parts]
    have hlp : ∀ t ∈ join.share .left p lefts, join.refusal .left t = none :=
      fun t ht => hl t (List.mem_of_mem_filter ht)
    have hrp : ∀ t ∈ join.share .right p rights, join.refusal .right t = none :=
      fun t ht => hr t (List.mem_of_mem_filter ht)
    rcases exists_load hlp hrp with
      ⟨hload, hblock⟩ | ⟨build, table, builds, probes, hload, hblock, hholds, hb, hp⟩
    · rw [hblock, List.nil_append]
      refine .of_again rfl fun n => ⟨_, n, ?_, ih⟩
      simp only [machine, step, hload]
    · rw [hblock]
      have hrest : (join.machine left right).Follows db tried?
          ⟨l, r, .joining (join.parts lefts rights ps)
            (some ⟨build, table, .ofTuples join.medium probes, none⟩)⟩ _ :=
        follows_probes hc hholds hb hp nofun ih
      refine .of_again rfl fun n => ⟨_, n, ?_, hrest⟩
      simp only [machine, step, hload]

/-- All pairs that are tried, partition after partition. -/
def candidates (join : HashJoin) (lefts rights : List Tuple) : List (Tuple × Tuple) :=
  (List.finRange join.partitions).flatMap fun p =>
    join.block (join.share .left p lefts) (join.share .right p rights)

/-- What comes of the tuples of two children. -/
def outcome (join : HashJoin) (lefts rights : List Tuple) : Trial (Tuple × Tuple) :=
  match (lefts.findSome? (join.refusal .left)).or (rights.findSome? (join.refusal .right)) with
  | some e => ⟨[], [], some e⟩
  | none => join.trial (join.candidates lefts rights)

theorem zip_shares (join : HashJoin) (lefts rights : List Tuple) :
    ((join.shares .left lefts).zip (join.shares .right rights)).toList =
      join.parts lefts rights (List.finRange join.partitions) := by
  refine List.ext_getElem (by simp [parts]) fun i hi _ => ?_
  have hi : i < join.partitions := by simpa using hi
  simp [parts, getElem_shares]

theorem exists_fold_place {op : Operator} {s : op.State} {tuples : List Tuple}
    (h : op.Yields db none s tuples) (join : HashJoin) (side : Side) (n : Nat) :
    ∃ s' n', op.fold (join.place side) db join.noTuples s n =
      (match tuples.findSome? (join.refusal side) with
        | some e => .error e
        | none => .ok (join.shares side tuples), s', n') := by
  refine ⟨_, _, Prod.ext ?_ rfl⟩
  rw [h.fold_fst, noTuples_eq join side, foldlM_place, List.nil_append]

/-- A hash join spreads the tuples of its children, and then joins all partitions. -/
theorem follows_spreading (hc : join.predicate.comparator = .eq) {lefts rights : List Tuple}
    (hl : left.Yields db none l lefts) (hr : right.Yields db none r rights) :
    (join.machine left right).Follows db tried? ⟨l, r, .spreading⟩ (join.outcome lefts rights) := by
  unfold outcome
  cases hel : lefts.findSome? (join.refusal .left) with
  | some e =>
    refine .of_ending rfl fun n => ?_
    obtain ⟨l', n', hfold⟩ := exists_fold_place hl join .left n
    rw [hel] at hfold
    exact ⟨⟨l', r, .spreading⟩, n', by simp only [machine, step, spread, hfold]; rfl⟩
  | none =>
    cases her : rights.findSome? (join.refusal .right) with
    | some e =>
      refine .of_ending rfl fun n => ?_
      obtain ⟨l', n', hfold⟩ := exists_fold_place hl join .left n
      obtain ⟨r', n'', hfold'⟩ := exists_fold_place hr join .right n'
      rw [hel] at hfold
      rw [her] at hfold'
      exact ⟨⟨l', r', .spreading⟩, n'', by simp only [machine, step, spread, hfold, hfold']; rfl⟩
    | none =>
      refine .of_again rfl fun n => ?_
      obtain ⟨l', n', hfold⟩ := exists_fold_place hl join .left n
      obtain ⟨r', n'', hfold'⟩ := exists_fold_place hr join .right n'
      rw [hel] at hfold
      rw [her] at hfold'
      refine ⟨⟨l', r', .joining (join.parts lefts rights (List.finRange _)) none⟩, n'', ?_,
        follows_parts hc (List.findSome?_eq_none_iff.1 hel) (List.findSome?_eq_none_iff.1 her) _⟩
      simp only [machine, step, spread, hfold, hfold', zip_shares]

/-- The pairs that are tried are those of the two children that match. -/
theorem candidates_perm (hc : join.predicate.comparator = .eq) {lefts rights : List Tuple}
    (hl : ∀ t ∈ lefts, ∃ k, join.predicate.leftKey t = .ok k)
    (hr : ∀ t ∈ rights, ∃ k, join.predicate.rightKey t = .ok k) :
    (join.candidates lefts rights).Perm (pairs join.predicate.joins lefts rights) := by
  have hpart : ∀ p, (join.block (join.share .left p lefts) (join.share .right p rights)).Perm
      (pairs join.predicate.joins (join.share .left p lefts) rights) := by
    intro p
    refine (block_perm join _ _).trans (.of_eq (List.flatMap_congr fun a ha => ?_))
    -- what matches a tuple goes to the same partition
    rw [share, List.filter_filter]
    refine congrArg _ (List.filter_congr fun b hb => ?_)
    obtain ⟨ha, hp⟩ := List.mem_filter.1 ha
    obtain ⟨k, hk⟩ := hl a ha
    obtain ⟨k', hk'⟩ := hr b hb
    cases hj : join.predicate.joins a b with
    | false => rfl
    | true =>
      obtain rfl := (JoinPredicate.joins_iff_of_eq hk hk' hc).1 hj
      have hslot : some (join.slot k) = some p := by simpa [keyOn, hk, Except.toOption] using hp
      simp [keyOn, hk', Except.toOption, hslot]
  have hslots : ((List.finRange join.partitions).flatMap fun p => join.share .left p lefts).Perm
      lefts := by
    have hnodup : ((List.finRange join.partitions).map some).Nodup :=
      List.Pairwise.map some (fun _ _ hne h => hne (Option.some.inj h)) (List.nodup_finRange _)
    have hparts := flatMap_parts_perm (fun t => (join.keyOn .left t).toOption.map join.slot) hnodup
      fun t ht => by
        obtain ⟨k, hk⟩ := hl t ht
        simp [keyOn, hk, Except.toOption]
    rwa [List.flatMap_map] at hparts
  have hall : ((List.finRange join.partitions).flatMap fun p =>
      pairs join.predicate.joins (join.share .left p lefts) rights).Perm
        (pairs join.predicate.joins lefts rights) := by
    have h := hslots.flatMap_right fun a => (rights.filter (join.predicate.joins a)).map (a, ·)
    rwa [List.flatMap_assoc] at h
  exact (List.Perm.flatMap_left _ fun p _ => hpart p).trans hall

/-! ## The join -/

variable {condition : Condition} {partitions : Nat} {route : Key → Nat} {config : Config}

theorem exists_of_bind {left right : Schema}
    (h : bind left right condition partitions route config = .ok join) :
    condition.bindJoin left right = .ok join.predicate ∧ join.predicate.comparator = .eq ∧
      join.medium = config.medium ∧ join.maxTupleSize = config.maxTupleSize := by
  unfold bind at h
  simp only [bind_eq_ok_iff, throw_eq_error, error_bind, refuse_eq_ok_iff, ne_eq,
    Decidable.not_not, pure_eq_ok] at h
  obtain ⟨_, -, hc, h⟩ := h
  split at h
  · simp at h
  · split at h
    · simp at h
    · simp only [bind_eq_ok_iff, Except.ok.injEq] at h
      obtain ⟨p, hp, rfl⟩ := h
      obtain ⟨-, -, -, -, -, -, -, -, -, hcomp, -⟩ := condition.exists_of_bindJoin hp
      exact ⟨hp, hcomp.trans hc, rfl, rfl⟩

theorem exists_start {s : (join.operator left right).State} {l : left.State} {r : right.State}
    (hl : left.start db s.body.left = (.ok (), l))
    (hr : right.start db s.body.right = (.ok (), r)) :
    (join.operator left right).start db s = (.ok (), ⟨⟨l, r, .spreading⟩, true, false⟩) := by
  have hstart : start left right db s.body = (.ok (), ⟨l, r, .spreading⟩) := by
    simp only [start, hl, hr]
  exact Machine.start_of_ok hstart

/-- The first tuple that has no room in its partition. -/
theorem findSome?_refusal (side : Side) {tuples : List Tuple}
    (h : ∀ t ∈ tuples, ∃ k, join.keyOn side t = .ok k) :
    tuples.findSome? (join.refusal side) =
      (tuples.find? fun t => !join.medium.takes t).map
        fun t => .tupleTooLarge t.length (2 ^ 32 - 1) := by
  induction tuples with
  | nil => rfl
  | cons t tuples ih =>
    obtain ⟨k, hk⟩ := h t List.mem_cons_self
    rw [List.findSome?_cons, List.find?_cons, refusal, hk]
    cases join.medium.takes t with
    | true => exact ih fun u hu => h u (List.mem_cons_of_mem t hu)
    | false => rfl

/-- **A hash join yields the pairs that match, partition by partition.** It takes in all tuples
first, and fails at one for whose length a file has no room. -/
theorem yields_candidates {s : (join.operator left right).State} {l : left.State} {r : right.State}
    {lefts rights : List Tuple}
    (hbind : bind left.schema right.schema condition partitions route config = .ok join)
    (hlstart : left.start db s.body.left = (.ok (), l)) (hl : left.Yields db none l lefts)
    (hrstart : right.start db s.body.right = (.ok (), r)) (hr : right.Yields db none r rights)
    (hlrow : ∀ t ∈ lefts, t.IsRow left.schema) (hrrow : ∀ t ∈ rights, t.IsRow right.schema)
    (hlfinite : ∀ t ∈ lefts, ∀ v, join.predicate.leftValue t = .ok v → v.isFinite = true)
    (hrfinite : ∀ t ∈ rights, ∀ v, join.predicate.rightValue t = .ok v → v.isFinite = true)
    (hfits : ∀ a ∈ lefts, ∀ b ∈ rights, join.predicate.joins a b = true →
      (a ++ b).length ≤ config.maxTupleSize) :
    ∃ s', (join.operator left right).start db s = (.ok (), s') ∧
      (match (lefts ++ rights).find? fun t => !config.medium.takes t with
        | none => (join.operator left right).Yields db none s'
            ((join.candidates lefts rights).map fun x => x.1 ++ x.2)
        | some t => (join.operator left right).Yields db
            (some (.tupleTooLarge t.length (2 ^ 32 - 1))) s' []) ∧
      (join.candidates lefts rights).Perm (pairs join.predicate.joins lefts rights) := by
  obtain ⟨hpred, hc, hmedium, hmax⟩ := exists_of_bind hbind
  have hlkeys : ∀ t ∈ lefts, ∃ k, join.predicate.leftKey t = .ok k := fun t ht =>
    JoinPredicate.exists_leftKey hpred (hlrow t ht) (hlfinite t ht)
  have hrkeys : ∀ t ∈ rights, ∃ k, join.predicate.rightKey t = .ok k := fun t ht =>
    JoinPredicate.exists_rightKey hpred (by rw [hc]; rfl) (hrrow t ht) (hrfinite t ht)
  have hperm := candidates_perm hc hlkeys hrkeys
  have hyields := (follows_spreading hc hl hr).yields "HashJoin" join.schema
  refine ⟨_, exists_start hlstart hrstart, ?_, hperm⟩
  rw [outcome, findSome?_refusal .left hlkeys, findSome?_refusal .right hrkeys,
    hmedium, ← Option.map_or, ← List.find?_append] at hyields
  split
  · rename_i hfind
    rw [hfind] at hyields
    have hlong : ∀ x ∈ join.candidates lefts rights, (x.1 ++ x.2).length ≤ join.maxTupleSize := by
      intro x hx
      obtain ⟨ha, hb, hj⟩ := mem_pairs.1 (hperm.mem_iff.1 hx)
      exact hmax ▸ hfits _ ha _ hb hj
    simp only [Option.map_none, trial, Trial.of_concat hlong] at hyields
    exact hyields
  · rename_i t hfind
    rw [hfind] at hyields
    exact hyields

/-- A join of two integers, with all keys in the second of two partitions. -/
def integers : HashJoin where
  condition := ⟨"a", .eq, .column "b"⟩
  predicate := ⟨⟨[.integer "a"], 4096⟩, ⟨[.integer "b"], 4096⟩, 0, 0, .eq, .integer⟩
  partitions := 2
  positive := by decide
  route := fun _ => 1
  medium := .disk
  maxTupleSize := 4096
  schema := [.integer "a", .integer "b"]

theorem yields_candidates_integers :
    ∃ s', (integers.operator
        (Materialized.operator ⟨[.integer "a"], [⟨[1, 0, 0, 0]⟩, ⟨[2, 0, 0, 0]⟩]⟩)
        (Materialized.operator ⟨[.integer "b"], [⟨[2, 0, 0, 0]⟩]⟩)).Yields {} none s'
      [⟨[2, 0, 0, 0, 2, 0, 0, 0]⟩] := by
  let left : Materialized := ⟨[.integer "a"], [⟨[1, 0, 0, 0]⟩, ⟨[2, 0, 0, 0]⟩]⟩
  let right : Materialized := ⟨[.integer "b"], [⟨[2, 0, 0, 0]⟩]⟩
  have hbind : bind left.schema right.schema ⟨"a", .eq, .column "b"⟩ 2 (fun _ => 1) {} =
      .ok integers := rfl
  obtain ⟨s', -, h, -⟩ := yields_candidates
    (s := (integers.operator left.operator right.operator).initial) hbind
    rfl (left.yields {} left.tuples) rfl (right.yields {} right.tuples)
    (List.forall_mem_cons.2 ⟨⟨_, rfl⟩, List.forall_mem_singleton.2 ⟨_, rfl⟩⟩)
    (List.forall_mem_singleton.2 ⟨_, rfl⟩)
    (List.forall_mem_cons.2 ⟨fun _ hv => Except.ok.inj hv ▸ rfl,
      List.forall_mem_singleton.2 fun _ hv => Except.ok.inj hv ▸ rfl⟩)
    (List.forall_mem_singleton.2 fun _ hv => Except.ok.inj hv ▸ rfl)
    (by decide)
  exact ⟨s', h⟩

/-- A join of texts on disk. -/
def texts : HashJoin where
  condition := ⟨"a", .eq, .column "b"⟩
  predicate := ⟨⟨[.text "a" (2 ^ 32)], 4096⟩, ⟨[.text "b" 0], 4096⟩, 0, 0, .eq, .text⟩
  partitions := 1
  positive := Nat.one_pos
  route := fun _ => 0
  medium := .disk
  maxTupleSize := 2 ^ 34
  schema := [.text "a" (2 ^ 32), .text "b" 0]

/-- The longest text that is read back makes a row that has no room in a file. -/
theorem takes_longest {bytes : List UInt8} (hlength : bytes.length = 2 ^ 32 - 1) :
    Medium.disk.takes ⟨Value.encode (.text bytes)⟩ = false := by
  rw [Bool.eq_false_iff, ne_eq, Medium.disk_takes_iff, Tuple.length, Value.length_encode,
    Value.encodedLength, hlength]
  decide

theorem bind_texts : bind [.text "a" (2 ^ 32)] [.text "b" 0] ⟨"a", .eq, .column "b"⟩ 1 (fun _ => 0)
    { maxTupleSize := 2 ^ 34 } = .ok texts := rfl

theorem isFinite_texts (hrow : t.IsRow [.text "a" (2 ^ 32)]) {v : Value}
    (hv : texts.predicate.leftValue t = .ok v) : v.isFinite = true := by
  obtain ⟨w, hw, htype⟩ := JoinPredicate.exists_leftValue (exists_of_bind bind_texts).1 hrow
  obtain rfl := Except.ok.inj (hw.symm.trans hv)
  exact Value.isFinite_of_text htype

/-- The join refuses a row without room while it is spread, though it matches nothing. -/
theorem stop_texts (hrow : t.IsRow [.text "a" (2 ^ 32)]) (hfull : Medium.disk.takes t = false) :
    (texts.outcome [t] []).stop = some (.tupleTooLarge t.length (2 ^ 32 - 1)) := by
  have hkey := JoinPredicate.exists_leftKey (exists_of_bind bind_texts).1 hrow
    fun _ hv => isFinite_texts hrow hv
  have hmedium : texts.medium = .disk := rfl
  rw [outcome, findSome?_refusal .left (List.forall_mem_singleton.2 hkey), List.find?_cons,
    hmedium, hfull]
  rfl

/-- A hash join does not always yield its pairs: it may take in a row that has no room in a file,
and fail at it though it matches nothing. -/
theorem not_always_candidates :
    ¬∀ (db : Database) (left right : Operator) (join : HashJoin) (condition : Condition)
        (partitions : Nat) (route : Key → Nat) (config : Config) (l : left.State) (r : right.State)
        (lefts rights : List Tuple),
      bind left.schema right.schema condition partitions route config = .ok join →
      left.start db left.initial = (.ok (), l) → left.Yields db none l lefts →
      right.start db right.initial = (.ok (), r) → right.Yields db none r rights →
      (∀ t ∈ lefts, t.IsRow left.schema) → (∀ t ∈ rights, t.IsRow right.schema) →
      (∀ t ∈ lefts, ∀ v, join.predicate.leftValue t = .ok v → v.isFinite = true) →
      (∀ t ∈ rights, ∀ v, join.predicate.rightValue t = .ok v → v.isFinite = true) →
      (∀ a ∈ lefts, ∀ b ∈ rights, join.predicate.joins a b = true →
        (a ++ b).length ≤ config.maxTupleSize) →
      ∃ s', (join.operator left right).start db (join.operator left right).initial = (.ok (), s') ∧
        (join.operator left right).Yields db none s'
          ((join.candidates lefts rights).map fun x => x.1 ++ x.2) := by
  intro hall
  obtain ⟨bytes, hlength⟩ : ∃ bytes : List UInt8, bytes.length = 2 ^ 32 - 1 :=
    ⟨List.replicate (2 ^ 32 - 1) 0, List.length_replicate⟩
  let t : Tuple := ⟨Value.encode (.text bytes)⟩
  let left : Materialized := ⟨[.text "a" (2 ^ 32)], [t]⟩
  let right : Materialized := ⟨[.text "b" 0], []⟩
  have hshort : bytes.length < 2 ^ 32 := by
    rw [hlength]
    decide
  have hrow : t.IsRow left.schema := Layout.isRow_text (Nat.le_of_lt hshort) hshort "a"
  have hfinite : ∀ u ∈ [t], ∀ v, texts.predicate.leftValue u = .ok v → v.isFinite = true :=
    List.forall_mem_singleton.2 fun _ hv => isFinite_texts hrow hv
  have hlstart : left.operator.start {} left.operator.initial = (.ok (), ⟨[t], true⟩) := rfl
  have hrstart : right.operator.start {} right.operator.initial = (.ok (), ⟨[], true⟩) := rfl
  obtain ⟨s', hstart, hyields⟩ := hall {} left.operator right.operator texts
    ⟨"a", .eq, .column "b"⟩ 1 (fun _ => 0) { maxTupleSize := 2 ^ 34 } _ _ [t] [] bind_texts hlstart
    (left.yields {} [t]) hrstart (right.yields {} []) (List.forall_mem_singleton.2 hrow) (by simp)
    hfinite (by simp) (by simp)
  obtain rfl := (Prod.mk.inj (hstart.symm.trans (exists_start hlstart hrstart))).2
  have hc : texts.predicate.comparator = .eq := rfl
  have hfails := (follows_spreading hc (left.yields {} [t]) (right.yields {} [])).yields
    "HashJoin" texts.schema
  rw [stop_texts hrow (takes_longest hlength)] at hfails
  cases (hyields.unique hfails).2

end QueryEngine.HashJoin
