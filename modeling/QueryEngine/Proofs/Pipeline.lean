import QueryEngine.Plan
import QueryEngine.Proofs.Operator.Typing

/-!
# Pipelines that were bound do not go wrong

A pipeline is built over a store if all its operators were bound, over leaves that scan tables or
hold rows. Whatever is done to it, while the store may grow, its tuples are well-formed under its
schema; and once it was opened it runs until the data give it a reason to fail.

* `Pipeline.Built`: pipelines that are built over a store, as plans without raw tuples are
  (`Plan.exists_built`).
* `Pipeline.Built.exists_keeps`: operator by operator, they keep a contract.
* `Pipeline.Built.decodes`, `Pipeline.Built.error_ofData`: what this says about histories.
-/

namespace QueryEngine

open Operator (Follows)

variable {base : Store} {p : Pipeline} {config? : Option Config} {may : Error → Prop}

/-- The tree of operators was bound over a store. The root has a configuration if it makes
tuples. -/
inductive Pipeline.Built (base : Store) : Pipeline → Option Config → Prop where
  | tableScan {scan table alias?} (bound : TableScan.bind base table alias? = .ok scan) :
    Built base (.tableScan scan) none
  | indexScan {scan table column alias?}
    (bound : IndexScan.bind base table column alias? = .ok scan) : Built base (.indexScan scan) none
  | materialized {leaf schema rows} (made : Materialized.ofValues schema rows = .ok leaf) :
    Built base (.materialized leaf) none
  | empty (leaf) : Built base (.empty leaf) none
  | filter {f child config? condition} (below : Built base child config?)
    (bound : Filter.bind child.schema condition = .ok f) : Built base (.filter f child) none
  | project {p child config? names config} (below : Built base child config?)
    (bound : Project.bind child.schema names config = .ok p) :
    Built base (.project p child) (some config)
  | aggregate {a child config? name statistic groupBy? config} (below : Built base child config?)
    (bound : Aggregate.bind child.schema name statistic groupBy? config = .ok a) :
    Built base (.aggregate a child) (some config)
  | blockJoin {join left config? scan table alias? condition pages config}
    (below : Built base left config?) (right : TableScan.bind base table alias? = .ok scan)
    (bound : BlockJoin.bind left.schema scan condition pages config = .ok join) :
    Built base (.blockJoin join left) (some config)
  | indexJoin {join left config? scan table column alias? condition config}
    (below : Built base left config?) (right : IndexScan.bind base table column alias? = .ok scan)
    (bound : IndexJoin.bind left.schema scan condition config = .ok join) :
    Built base (.indexJoin join left) (some config)
  | hashJoin {join left right configLeft? configRight? condition partitions route config}
    (belowLeft : Built base left configLeft?) (belowRight : Built base right configRight?)
    (bound : HashJoin.bind left.schema right.schema condition partitions route config = .ok join) :
    Built base (.hashJoin join left right) (some config)

/-! ## Plans -/

/-- The leaves of a plan are scans and rows of values. -/
def Plan.isTyped : Plan → Bool
  | tuples _ _ | failing _ _ _ => false
  | tableScan _ | indexScan _ | rows _ _ | empty _ => true
  | filter child _ | project child _ _ | aggregate child _ _ _ _ => child.isTyped
  | blockJoin left _ _ _ _ | indexJoin left _ _ _ => left.isTyped
  | hashJoin left right _ _ _ => left.isTyped && right.isTyped

/-- Binding a plan builds its pipeline. -/
theorem Plan.exists_built {plan : Plan} {hash : Key → UInt64} (h : plan.bind hash base = .ok p)
    (ht : plan.isTyped = true) :
    ∃ config?, p.Built base config? := by
  induction plan generalizing p with
  | tuples | failing => cases ht
  | empty schema =>
    obtain rfl := Except.ok.inj h
    exact ⟨none, .empty _⟩
  | tableScan source =>
    simp only [bind, bind_eq_ok_iff, pure_eq_ok, Except.ok.injEq] at h
    obtain ⟨scan, hscan, rfl⟩ := h
    exact ⟨none, .tableScan hscan⟩
  | indexScan source =>
    simp only [bind, bind_eq_ok_iff, pure_eq_ok, Except.ok.injEq] at h
    obtain ⟨scan, hscan, rfl⟩ := h
    exact ⟨none, .indexScan hscan⟩
  | rows schema list =>
    simp only [bind, bind_eq_ok_iff, pure_eq_ok, Except.ok.injEq] at h
    obtain ⟨leaf, hleaf, rfl⟩ := h
    exact ⟨none, .materialized hleaf⟩
  | filter child condition ih =>
    simp only [bind, bind_eq_ok_iff, pure_eq_ok, Except.ok.injEq] at h
    obtain ⟨q, hq, f, hf, rfl⟩ := h
    obtain ⟨config?, hbuilt⟩ := ih hq ht
    exact ⟨none, .filter hbuilt hf⟩
  | project child names config ih =>
    simp only [bind, bind_eq_ok_iff, pure_eq_ok, Except.ok.injEq] at h
    obtain ⟨q, hq, f, hf, rfl⟩ := h
    obtain ⟨config?, hbuilt⟩ := ih hq ht
    exact ⟨some config, .project hbuilt hf⟩
  | aggregate child name statistic groupBy? config ih =>
    simp only [bind, bind_eq_ok_iff, pure_eq_ok, Except.ok.injEq] at h
    obtain ⟨q, hq, a, ha, rfl⟩ := h
    obtain ⟨config?, hbuilt⟩ := ih hq ht
    exact ⟨some config, .aggregate hbuilt ha⟩
  | blockJoin left right condition pages config ih =>
    simp only [bind, bind_eq_ok_iff, pure_eq_ok, Except.ok.injEq] at h
    obtain ⟨q, hq, scan, hscan, join, hjoin, rfl⟩ := h
    obtain ⟨config?, hbuilt⟩ := ih hq ht
    exact ⟨some config, .blockJoin hbuilt hscan hjoin⟩
  | indexJoin left right condition config ih =>
    simp only [bind, bind_eq_ok_iff, pure_eq_ok, Except.ok.injEq] at h
    obtain ⟨q, hq, scan, hscan, join, hjoin, rfl⟩ := h
    obtain ⟨config?, hbuilt⟩ := ih hq ht
    exact ⟨some config, .indexJoin hbuilt hscan hjoin⟩
  | hashJoin left right condition partitions config ihLeft ihRight =>
    simp only [bind, bind_eq_ok_iff, pure_eq_ok, Except.ok.injEq] at h
    obtain ⟨q, hq, r, hr, join, hjoin, rfl⟩ := h
    obtain ⟨hleft, hright⟩ := Bool.and_eq_true_iff.1 ht
    obtain ⟨configLeft?, hbuiltLeft⟩ := ihLeft hq hleft
    obtain ⟨configRight?, hbuiltRight⟩ := ihRight hr hright
    exact ⟨some config, .hashJoin hbuiltLeft hbuiltRight hjoin⟩

namespace Pipeline

/-- The tuple is one of the pipeline's schema, and not longer than it is allowed to make. -/
def Good (p : Pipeline) (config? : Option Config) (t : Tuple) : Prop :=
  t.WellFormed p.schema ∧ ∀ config ∈ config?, t.length ≤ config.maxTupleSize

theorem good_none {t : Tuple} (h : t.WellFormed p.schema) : p.Good none t :=
  ⟨h, fun _ h => nomatch h⟩

theorem good_some {t : Tuple} {config : Config}
    (h : t.WellFormed p.schema ∧ t.length ≤ config.maxTupleSize) : p.Good (some config) t :=
  ⟨h.1, fun _ hconfig => Option.some.inj hconfig ▸ h.2⟩

/-! ## Contracts -/

theorem wellFormed_of_ofValues {schema : Schema} {rows : List (List Value)} {leaf : Materialized}
    (h : Materialized.ofValues schema rows = .ok leaf) :
    ∀ t ∈ leaf.tuples, t.WellFormed leaf.schema := by
  simp only [Materialized.ofValues, bind_eq_ok_iff, pure_eq_ok, Except.ok.injEq] at h
  obtain ⟨tuples, htuples, rfl⟩ := h
  have hmeets : Meets (∀ t ∈ ·, t.WellFormed schema) (fun _ => True)
      (rows.mapM ({ schema } : Layout).encode) := by
    refine Meets.mapM fun row _ => meets_iff.2 ⟨fun t ht => ?_, fun _ _ => trivial⟩
    have hlt : t.length < 2 ^ 32 :=
      Nat.lt_of_le_of_lt (Layout.length_le_of_encode ht) (by simp [defaultMaxTupleSize])
    exact Layout.wellFormed_of_encode ht (Layout.shortTexts_of_encode ht hlt)
  rw [htuples] at hmeets
  exact hmeets

/-- **Every operator that was bound keeps a contract over that of its children.** -/
theorem Built.exists_keeps (hbase : base.Reachable) (hmax : base.maxTupleSize < 2 ^ 32)
    (hmay : ∀ e : Error, e.OfData → may e) (refuses : Error → Prop) (h : p.Built base config?) :
    ∃ c : Contract (.growing base may refuses) p.operator.State,
      p.operator.Keeps c (p.Good config?) := by
  induction h with
  | @tableScan scan _ _ bound =>
    have hkeeps := TableScan.keeps (w := .growing base may refuses)
      fun hdb => TableScan.meets_scan hbase hmax bound hdb
    exact ⟨_, hkeeps.mono fun t ht => good_none ht⟩
  | indexScan bound =>
    refine ⟨_, (IndexScan.source hbase hmax bound).keeps.mono ?_⟩
    exact fun t ht => good_none ht
  | materialized made =>
    exact ⟨_, (Materialized.keeps (wellFormed_of_ofValues made)).mono fun t ht => good_none ht⟩
  | empty leaf => exact ⟨_, Empty.keeps leaf⟩
  | @filter _ child _ condition below bound ih =>
    obtain ⟨c, hchild⟩ := ih
    simp only [Filter.bind, bind_eq_ok_iff, pure_eq_ok, Except.ok.injEq] at bound
    obtain ⟨predicate, hpredicate, rfl⟩ := bound
    have hgood := hchild.mono fun t ht => ht.1
    have hkeeps := Filter.keeps (f := ⟨condition, predicate⟩) hgood fun t ht =>
      Condition.meets_evaluate (hmay _ .nonFiniteReal) hpredicate ht.isRow
    exact ⟨_, (hkeeps.operator _ _).mono fun t ht => good_none ht⟩
  | project below bound ih =>
    obtain ⟨c, hchild⟩ := ih
    have hkeeps := Project.keeps hchild fun t ht => Project.meets_project hmay bound ht.1
    exact ⟨_, (hkeeps.operator _ _).mono fun t ht => good_some ht⟩
  | aggregate below bound ih =>
    obtain ⟨c, hchild⟩ := ih
    have hkeeps := Aggregate.keeps hchild fun hdb hs =>
      Aggregate.folds_compute hmay hchild (fun t ht => ht.1) bound hdb hs
    exact ⟨_, (hkeeps.operator _ _).mono fun t ht => good_some ht⟩
  | blockJoin below right bound ih =>
    obtain ⟨c, hchild⟩ := ih
    obtain ⟨-, rfl, -, -⟩ := BlockJoin.exists_of_bind bound
    have hright := TableScan.keeps (w := .growing base may refuses)
      fun hdb => TableScan.meets_scan hbase hmax right hdb
    have hkeeps := BlockJoin.keeps (hchild.mono fun t ht => ht.1) hright
      (fun _ _ _ hs => TableScan.starts_rewind hs) (BlockJoin.joins_of_bind hmay bound)
    exact ⟨_, (hkeeps.operator _ _).mono fun t ht => good_some ht⟩
  | indexJoin below right bound ih =>
    obtain ⟨c, hchild⟩ := ih
    obtain ⟨-, -, rfl, -⟩ := IndexJoin.exists_of_bind bound
    have hkeeps := IndexJoin.keeps (hchild.mono fun t ht => ht.1)
      (IndexJoin.joins_of_bind hbase hmax hmay right bound)
    exact ⟨_, (hkeeps.operator _ _).mono fun t ht => good_some ht⟩
  | hashJoin belowLeft belowRight bound ihLeft ihRight =>
    obtain ⟨c, hleft⟩ := ihLeft
    obtain ⟨d, hright⟩ := ihRight
    have hkeeps := HashJoin.keeps (hleft.mono fun t ht => ht.1) (hright.mono fun t ht => ht.1)
      (HashJoin.joins_of_bind hmay bound)
    exact ⟨_, (hkeeps.operator _ _).mono fun t ht => good_some ht⟩

/-! ## Histories -/

variable {events before after : List Operator.Event} {event : Operator.Event} {db : Database}

/-- **Every tuple is well-formed.** Whatever calls are made on a pipeline while its store grows, and
whatever fails on the way, a tuple that it gives decodes under its schema: into one value for each
attribute, of its type and not longer than it says. A tuple that the root makes itself is not longer
than its configuration allows. -/
theorem Built.decodes (hp : p.Built base config?) (hbase : base.Reachable)
    (hmax : base.maxTupleSize < 2 ^ 32) {s : p.operator.State}
    (hhistory : p.operator.History p.operator.initial events s)
    (hgrows : Follows Database.Grows { store := base } events) (hevent : event ∈ events) {t : Tuple}
    (ht : event.answer? = some (.ok (some t))) :
    (∃ row, ({ schema := p.operator.schema } : Layout).decode t = .ok row ∧
      List.Forall₂ Attribute.Admits p.operator.schema row) ∧
    ∀ config ∈ config?, t.length ≤ config.maxTupleSize := by
  have hfaults : ∀ db : Database, db.FaultsIn (fun _ => True) (fun _ => True) :=
    fun _ => ⟨fun _ _ _ _ => trivial, fun _ _ _ => trivial, fun _ _ _ => trivial⟩
  obtain ⟨c, hkeeps⟩ := hp.exists_keeps hbase hmax (fun _ _ => trivial) fun _ => True
  have hfollows : Follows (Setting.growing base _ _).changes { store := base } events :=
    Setting.follows_growing hgrows .refl fun _ _ db' _ => hfaults db'
  have hinitial : c.holds false { store := base } p.operator.initial :=
    hkeeps.initial ⟨.refl, .refl, hfaults _⟩
  obtain ⟨⟨row, hrow⟩, hsize⟩ := (hkeeps.history hfollows hinitial hhistory).2 event hevent t ht
  rw [operator_schema]
  exact ⟨⟨row, hrow.decode, hrow.admits⟩, hsize⟩

/-- A table of two texts, the second of which is longer. -/
def texts : Store :=
  ⟨64, [("t", ⟨⟨[.text "s" 3], 64⟩, [(1, ⟨[1, 0, 0, 0, 97]⟩), (2, ⟨[3, 0, 0, 0, 98, 98, 98]⟩)],
    []⟩)]⟩

theorem reachable_texts : texts.Reachable := by
  have hcreate : Store.Reachable ⟨64, [("t", ⟨⟨[.text "s" 3], 64⟩, [], []⟩)]⟩ :=
    .createTable (.empty 64) (show Store.createTable _ "t" [.text "s" 3] = _ from rfl)
  have hinsert : Store.Reachable
      ⟨64, [("t", ⟨⟨[.text "s" 3], 64⟩, [(1, ⟨[1, 0, 0, 0, 97]⟩)], []⟩)]⟩ :=
    .insert hcreate (show Store.insert _ "t" [.text [97]] = .ok (1, _) from rfl)
  exact .insert hinsert (show Store.insert _ "t" [.text [98, 98, 98]] = .ok (2, _) from rfl)

/-- The table of texts with one more row. -/
def moreTexts : Store :=
  ⟨64, [("t", ⟨⟨[.text "s" 3], 64⟩, [(1, ⟨[1, 0, 0, 0, 97]⟩), (2, ⟨[3, 0, 0, 0, 98, 98, 98]⟩),
    (3, ⟨[0, 0, 0, 0]⟩)], []⟩)]⟩

/-- The texts, in tuples of five bytes at most. -/
def shortTexts : Pipeline :=
  .project ⟨⟨[.text "t.s" 3], 5⟩, [0], [.text "t.s" 3]⟩ (.tableScan ⟨"t", [.text "t.s" 3]⟩)

theorem built_shortTexts : shortTexts.Built texts (some { maxTupleSize := 5 }) := by
  have hscan : TableScan.bind texts "t" none = .ok ⟨"t", [.text "t.s" 3]⟩ := rfl
  exact .project (.tableScan hscan)
    (show Project.bind _ ["t.s"] { maxTupleSize := 5 } = .ok _ from rfl)

/-- One text is given. Then a row comes in, and the other text is too long. -/
def shortTextsEvents : List Operator.Event :=
  [.opened { store := texts } (.ok ()),
    .pulled { store := texts } 0 (.ok (some ⟨[1, 0, 0, 0, 97]⟩)),
    .pulled { store := moreTexts } 0 (.error (.tupleTooLarge 7 5))]

theorem follows_shortTexts : Follows Database.Grows { store := texts } shortTextsEvents := by
  have hgrows : texts.Grows moreTexts :=
    .insert .refl (show texts.insert "t" [.text []] = .ok (3, _) from rfl)
  refine ⟨?_, ?_, ?_, trivial⟩ <;> rintro db' ⟨⟩
  · exact .refl
  · exact .refl
  · exact hgrows

theorem exists_history_shortTexts :
    ∃ s, shortTexts.operator.History shortTexts.operator.initial shortTextsEvents s :=
  ⟨_, .cons (.opened rfl) (.cons (.pulled (Machine.guardedNext_of_settled_ok "Project" rfl))
    (.cons (.pulled (Machine.guardedNext_of_settled_error "Project" rfl)) .nil))⟩

theorem decodes_texts :
    (∃ row, ({ schema := [.text "t.s" 3] } : Layout).decode ⟨[1, 0, 0, 0, 97]⟩ = .ok row ∧
      List.Forall₂ Attribute.Admits [.text "t.s" 3] row) ∧
    ∀ config ∈ some ({ maxTupleSize := 5 } : Config),
      (⟨[1, 0, 0, 0, 97]⟩ : Tuple).length ≤ config.maxTupleSize := by
  obtain ⟨s, hs⟩ := exists_history_shortTexts
  exact built_shortTexts.decodes reachable_texts (by decide) hs follows_shortTexts
    (List.mem_cons_of_mem _ List.mem_cons_self) rfl

/-- **What was bound does not go wrong.** The first failure after an opening and before closing is a
matter of the data, as long as the store only grows and nothing is planned to fail. -/
theorem Built.error_ofData (hp : p.Built base config?) (hbase : base.Reachable)
    (hmax : base.maxTupleSize < 2 ^ 32) {s : p.operator.State} {e : Error}
    (hhistory : p.operator.History p.operator.initial
      (before ++ .opened db (.ok ()) :: (after ++ [event])) s)
    (hgrows : Follows Database.Grows { store := base }
      (before ++ .opened db (.ok ()) :: (after ++ [event])))
    (hfaults : ∀ call ∈ before ++ .opened db (.ok ()) :: (after ++ [event]),
      ∀ db' ∈ call.database?, db'.Faultless)
    (hrun : ∀ call ∈ after, call ≠ .closed ∧ call.failure? = none)
    (he : event.failure? = some e) : e.OfData := by
  obtain ⟨c, hkeeps⟩ := hp.exists_keeps hbase hmax (fun _ h => h) fun _ => False
  have hfollows := Setting.follows_growing hgrows .refl
    fun call hcall db' hdb' => (hfaults call hcall db' hdb').faultsIn Error.OfData fun _ => False
  have hinitial : c.holds false { store := base } p.operator.initial :=
    hkeeps.initial ⟨.refl, .refl, Database.Faultless.faultsIn ⟨rfl, rfl⟩ _ _⟩
  exact hkeeps.may_of_failure (fun _ => id) hfollows hinitial hhistory hrun he

theorem error_ofData_texts : (Error.tupleTooLarge 7 5).OfData := by
  obtain ⟨s, hs⟩ := exists_history_shortTexts
  have hs : shortTexts.operator.History shortTexts.operator.initial
      ([] ++ .opened { store := texts } (.ok ()) ::
        ([.pulled { store := texts } 0 (.ok (some ⟨[1, 0, 0, 0, 97]⟩))] ++
          [.pulled { store := moreTexts } 0 (.error (.tupleTooLarge 7 5))])) s := hs
  refine built_shortTexts.error_ofData reachable_texts (by decide) hs follows_shortTexts ?_ ?_ rfl
  · refine List.forall_mem_cons.2 ⟨?_, List.forall_mem_cons.2 ⟨?_, List.forall_mem_singleton.2 ?_⟩⟩
    all_goals
      rintro db' ⟨⟩
      exact ⟨rfl, rfl⟩
  · exact List.forall_mem_singleton.2 ⟨by simp, rfl⟩

end Pipeline

end QueryEngine
