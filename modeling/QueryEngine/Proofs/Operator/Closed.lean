import QueryEngine.Pipeline
import QueryEngine.Proofs.Operator.BlockJoin
import QueryEngine.Proofs.Operator.History
import QueryEngine.Proofs.Operator.Stream

/-!
# Closed operators

Closing an operator lets go of all the tuples that it holds, and closes its children. Being pulled
afterwards is not refused, as the operator counts as opened for ever: it goes on with what it was
at, on children that have nothing to give any more. So it comes to its end or to an error of theirs.

* `Operator.Hushes`: states from which pulls give no tuples. The first state and those after closing
  are such; opening is what leads out of them.
* `Machine.hushes`: this of a machine, by its steps.
* `Pipeline.hushes`: trees over scans are silent from closing to opening, whatever becomes of the
  store; `Pipeline.silent_of_closed` says so of histories.
-/

namespace QueryEngine

variable {db : Database} {n : Nat}

/-- A pull that gives no tuple and leads to such a state. -/
def Pull.Idles {σ : Type} (P : σ → Prop) : Pull σ → Prop
  | ⟨.ok (some _), _, _⟩ => False
  | ⟨_, s, _⟩ => P s

namespace Operator

variable {op : Operator} {quiet : op.State → Prop} {s u : op.State}

/-- States from which pulls give no tuples: the first one and all where the operator was just
closed are among them. -/
structure Hushes (op : Operator) (db : Database) (quiet : op.State → Prop) : Prop where
  initial : quiet op.initial
  close : ∀ s, quiet (op.close s)
  next : ∀ {s}, quiet s → ∀ n, (op.next db s n).Idles quiet

/-- Taking in all tuples takes in none. -/
theorem Hushes.fold_cases {β : Type} (h : op.Hushes db quiet) (hs : quiet s)
    (f : β → Tuple → Except Error β) (b : β) (n : Nat) :
    (∃ u k, op.fold f db b s n = (.ok b, u, k) ∧ quiet u) ∨
      ∃ e u k, op.fold f db b s n = (.error e, u, k) ∧ quiet u := by
  have hnext := h.next hs n
  rw [fold]
  split <;> rename_i hpull <;> rw [hpull] at hnext
  · exact .inr ⟨_, _, _, rfl, hnext⟩
  · exact .inl ⟨_, _, rfl, hnext⟩
  · exact hnext.elim

/-- Until it is opened again the operator stays silent. -/
theorem Hushes.silent (h : ∀ db, op.Hushes db quiet) (hs : quiet s) {events : List Event}
    (hevents : ∀ event ∈ events, ∀ db answer, event ≠ .opened db answer)
    (hhistory : op.History s events u) :
    ∀ event ∈ events, ∀ t, event.answer? ≠ some (.ok (some t)) := by
  induction hhistory with
  | nil => exact fun _ hmem => nomatch hmem
  | @cons s v u event events first rest ih =>
    obtain ⟨hevent, hevents⟩ := List.forall_mem_cons.1 hevents
    have hfirst : quiet v ∧ ∀ t, event.answer? ≠ some (.ok (some t)) := by
      rcases first.cases with ⟨db, answer, rfl, -⟩ | ⟨db, n, answer, n', -, ha, hnext⟩ | ⟨rfl, rfl⟩
      · exact (hevent db answer rfl).elim
      · have hidles := (h db).next hs n
        rw [hnext] at hidles
        rw [ha]
        rcases answer with e | _ | t
        · exact ⟨hidles, fun t ht => nomatch ht⟩
        · exact ⟨hidles, fun t ht => nomatch ht⟩
        · exact hidles.elim
      · exact ⟨(h {}).close s, fun t ht => nomatch ht⟩
    exact List.forall_mem_cons.2 ⟨hfirst.2, ih hfirst.1 hevents⟩

end Operator

/-- The operator of a machine is quiet where its body is. -/
theorem Machine.hushes {m : Machine} {P : m.State → Prop} (hinitial : P m.initial)
    (hclose : ∀ s, P (m.close s)) (hstep : ∀ s, P s → ∀ n, (m.step db s n).Leads P (Pull.Idles P))
    (name : String) (schema : Schema) :
    (m.operator name schema).Hushes db fun s => P (Guarded.body s) where
  initial := hinitial
  close s := hclose _
  next {s} hs n := by
    show (m.guardedNext name db s n).Idles _
    rcases m.guardedNext_cases name db s n with ⟨-, heq⟩ | ⟨-, -, heq⟩ |
      ⟨-, -, answer, body, k, hm, heq⟩ <;> rw [heq]
    · exact hs
    · exact hs
    · have hrun := m.leads_run hstep hs n
      rw [hm] at hrun
      rcases answer with e | _ | t <;> exact hrun

/-! ## Leaves -/

theorem TableScan.hushes (scan : TableScan) (db : Database) :
    scan.operator.Hushes db fun s => State.scanner s = none where
  initial := rfl
  close _ := rfl
  next {s} hs n := by
    obtain ⟨_, done⟩ := s
    obtain rfl : _ = none := hs
    exact rfl

theorem IndexScan.hushes (scan : IndexScan) (db : Database) :
    scan.operator.Hushes db fun s => State.scanner s = none where
  initial := rfl
  close _ := rfl
  next {s} hs n := by
    obtain ⟨_, _, _, _, _⟩ := s
    obtain rfl : _ = none := hs
    exact rfl

/-- A leaf without tuples has none to give. -/
theorem Empty.hushes (leaf : Empty) (db : Database) : leaf.operator.Hushes db fun _ => True where
  initial := trivial
  close _ := trivial
  next {s} _ n := by cases s <;> exact trivial

/-! ## Operators of one child -/

section

variable {child : Operator} {quiet : child.State → Prop}

theorem Filter.hushes (f : Filter) (h : child.Hushes db quiet) :
    (f.operator child).Hushes db fun s => quiet (State.child (Machine.Guarded.body s)) := by
  refine Machine.hushes (m := f.machine child) (P := fun s => quiet (State.child s)) h.initial
    (fun s => h.close _) (fun s hs n => ?_) _ _
  have hnext := h.next hs n
  show (f.step child db s n).Leads _ _
  unfold step
  split
  · exact hs
  · split <;> rename_i hc <;> rw [hc] at hnext
    · exact hnext
    · exact hnext
    · exact hnext.elim

theorem Project.hushes (p : Project) (h : child.Hushes db quiet) :
    (p.operator child).Hushes db fun s => quiet (Machine.Guarded.body s) := by
  refine Machine.hushes (m := p.machine child) (P := quiet) h.initial h.close
    (fun s hs n => ?_) _ _
  have hnext := h.next hs n
  show (p.step child db s n).Leads _ _
  unfold step
  split <;> rename_i hc <;> rw [hc] at hnext
  · exact hnext
  · exact hnext
  · exact hnext.elim

namespace Aggregate

/-- The child is quiet, and no computed tuple is left. -/
def Quiet (quiet : child.State → Prop) (s : State child.State) : Prop :=
  quiet s.child ∧ s.output.getD [] = []

/-- Of no tuples there is nothing to yield. -/
theorem compute_of_quiet (a : Aggregate) (h : child.Hushes db quiet) {c : child.State}
    (hc : quiet c) (n : Nat) :
    (∃ c' k, a.compute child db c n = (.ok [], c', k) ∧ quiet c') ∨
      ∃ e c' k, a.compute child db c n = (.error e, c', k) ∧ quiet c' := by
  unfold compute
  split
  · rcases h.fold_cases hc a.add .empty n with ⟨c', k, heq, hc'⟩ | ⟨e, c', k, heq, hc'⟩ <;> rw [heq]
    · exact .inl ⟨c', k, rfl, hc'⟩
    · exact .inr ⟨e, c', k, rfl, hc'⟩
  · rename_i position keyType _
    rcases h.fold_cases hc (a.addGrouped position) (.empty keyType) n with
      ⟨c', k, heq, hc'⟩ | ⟨e, c', k, heq, hc'⟩ <;> rw [heq]
    · exact .inl ⟨c', k, rfl, hc'⟩
    · exact .inr ⟨e, c', k, rfl, hc'⟩

theorem hushes (a : Aggregate) (h : child.Hushes db quiet) :
    (a.operator child).Hushes db fun s => Quiet quiet (Machine.Guarded.body s) := by
  refine Machine.hushes (m := a.machine child) (P := Quiet quiet) ⟨h.initial, rfl⟩
    (fun s => ⟨h.close _, rfl⟩) (fun s hs n => ?_) _ _
  obtain ⟨hchild, houtput⟩ := id hs
  show (a.step child db s n).Leads _ _
  unfold step
  split
  · rcases a.compute_of_quiet h hchild n with ⟨c, k, heq, hc⟩ | ⟨e, c, k, heq, hc⟩ <;> rw [heq]
    · exact ⟨hc, rfl⟩
    · exact ⟨hc, houtput⟩
  · exact hs
  · rename_i ho
    rw [ho] at houtput
    cases houtput

end Aggregate

end

/-! ## Joins -/

section

variable {left right : Operator} {quiet : left.State → Prop} {quietRight : right.State → Prop}

namespace BlockJoin

/-- The left child is quiet, and there is nothing in the block. -/
def Quiet (quiet : left.State → Prop) (s : State left.State) : Prop :=
  quiet s.left ∧ s.block.isEmpty = true ∧ s.phase = .filling

theorem hushes (join : BlockJoin) (h : left.Hushes db quiet) :
    (join.operator left).Hushes db fun s => Quiet quiet (Machine.Guarded.body s) := by
  refine Machine.hushes (m := join.machine left) (P := Quiet quiet) ⟨h.initial, rfl, rfl⟩
    (fun s => ⟨h.close _, rfl, rfl⟩) (fun s hs n => ?_) _ _
  obtain ⟨hleft, hblock, hphase⟩ := id hs
  have hnext := h.next hleft n
  show (join.step left db s n).Leads _ _
  unfold step
  rw [hphase]
  split
  · exact hs
  · show (join.fill left db s n).Leads _ _
    unfold fill
    split
    · exact ⟨hleft, hblock, hphase⟩
    · split <;> rename_i hl <;> rw [hl] at hnext
      · exact ⟨hnext, hblock, hphase⟩
      · exact ⟨hnext, hblock, hphase⟩
      · exact hnext.elim

end BlockJoin

namespace IndexJoin

/-- The left child is quiet, and no left tuple is being looked up. -/
def Quiet (quiet : left.State → Prop) (s : State left.State) : Prop :=
  quiet s.left ∧ s.probe = none

theorem hushes (join : IndexJoin) (h : left.Hushes db quiet) :
    (join.operator left).Hushes db fun s => Quiet quiet (Machine.Guarded.body s) := by
  refine Machine.hushes (m := join.machine left) (P := Quiet quiet) ⟨h.initial, rfl⟩
    (fun s => ⟨h.close _, rfl⟩) (fun s hs n => ?_) _ _
  obtain ⟨hleft, hprobe⟩ := id hs
  have hnext := h.next hleft n
  show (join.step left db s n).Leads _ _
  unfold step
  rw [hprobe]
  split
  · exact hs
  · show (join.advance left db s n).Leads _ _
    unfold advance
    split <;> rename_i hl <;> rw [hl] at hnext
    · exact ⟨hnext, hprobe⟩
    · exact ⟨hnext, hprobe⟩
    · exact hnext.elim

end IndexJoin

namespace HashJoin

/-- There is nothing in the partitions, on the left side at least. -/
def Phase.Bare : Phase → Prop
  | .spreading => True
  | .joining pending active => (∀ p ∈ pending, p.1.isEmpty = true) ∧ active = none

/-- Both children are quiet, and there is nothing to join. -/
def Quiet (quiet : left.State → Prop) (quietRight : right.State → Prop)
    (s : State left.State right.State) : Prop :=
  quiet s.left ∧ quietRight s.right ∧ s.phase.Bare

theorem isEmpty_of_mem_zip {join : HashJoin} {rights : join.Partitions}
    {p : Spill.Partition × Spill.Partition} (hp : p ∈ (join.noTuples.zip rights).toList) :
    p.1.isEmpty = true := by
  obtain ⟨i, hi, rfl⟩ := Vector.mem_iff_getElem.1 (Vector.mem_toList_iff.1 hp)
  rw [Vector.getElem_zip, noTuples, Vector.getElem_replicate]
  cases join.medium <;> rfl

/-- Quiet children are spread into nothing. -/
theorem leads_spread (join : HashJoin) (h : left.Hushes db quiet)
    (hright : right.Hushes db quietRight) {s : State left.State right.State}
    (hs : Quiet quiet quietRight s) (n : Nat) :
    (join.spread left right db s n).Leads (Quiet quiet quietRight)
      (Pull.Idles (Quiet quiet quietRight)) := by
  obtain ⟨hl, hr, hphase⟩ := hs
  unfold spread
  rcases h.fold_cases hl (join.place .left) join.noTuples n with
    ⟨l, k, heq, hl'⟩ | ⟨e, l, k, heq, hl'⟩ <;> rw [heq]
  · rcases hright.fold_cases hr (join.place .right) join.noTuples k with
      ⟨r, k', heq', hr'⟩ | ⟨e, r, k', heq', hr'⟩ <;> simp only [heq']
    · exact ⟨hl', hr', fun p hp => isEmpty_of_mem_zip hp, rfl⟩
    · exact ⟨hl', hr', hphase⟩
  · exact ⟨hl', hr, hphase⟩

theorem hushes (join : HashJoin) (h : left.Hushes db quiet)
    (hright : right.Hushes db quietRight) :
    (join.operator left right).Hushes db
      fun s => Quiet quiet quietRight (Machine.Guarded.body s) := by
  refine Machine.hushes (m := join.machine left right) (P := Quiet quiet quietRight)
    ⟨h.initial, hright.initial, trivial⟩ (fun s => ⟨h.close _, hright.close _, ?bare⟩)
    (fun s hs n => ?_) _ _
  case bare =>
    show s.phase.close.Bare
    cases s.phase with
    | spreading => trivial
    | joining => exact ⟨fun _ hp => (nomatch hp), rfl⟩
  obtain ⟨hl, hr, hphase⟩ := id hs
  show (join.step left right db s n).Leads _ _
  unfold step
  split
  · exact join.leads_spread h hright hs n
  · exact hs
  · rename_i l r pending hp
    rw [hp] at hphase
    obtain ⟨hempty, hpending⟩ := List.forall_mem_cons.1 hphase.1
    have hload : join.load l r = .ok none := by rw [load, hempty]; rfl
    rw [hload]
    exact ⟨hl, hr, hpending, rfl⟩
  · rename_i hp
    rw [hp] at hphase
    cases hphase.2

end HashJoin

end

/-! ## Trees -/

namespace Pipeline

/-- All that the tree gives comes from the store: its leaves are scans, or without tuples. -/
def readsStore : Pipeline → Bool
  | tableScan _ | indexScan _ | empty _ => true
  | materialized _ | failing _ => false
  | filter _ child | project _ child | aggregate _ child => child.readsStore
  | blockJoin _ left | indexJoin _ left => left.readsStore
  | hashJoin _ left right => left.readsStore && right.readsStore

/-- **Operators over the store are silent once they are closed.** -/
theorem hushes {p : Pipeline} (h : p.readsStore = true) :
    ∃ quiet, ∀ db, p.operator.Hushes db quiet := by
  induction p with
  | materialized | failing => cases h
  | tableScan scan => exact ⟨_, scan.hushes⟩
  | indexScan scan => exact ⟨_, scan.hushes⟩
  | empty leaf => exact ⟨_, leaf.hushes⟩
  | filter f child ih =>
    obtain ⟨_, hchild⟩ := ih h
    exact ⟨_, fun db => f.hushes (hchild db)⟩
  | project p child ih =>
    obtain ⟨_, hchild⟩ := ih h
    exact ⟨_, fun db => p.hushes (hchild db)⟩
  | aggregate a child ih =>
    obtain ⟨_, hchild⟩ := ih h
    exact ⟨_, fun db => a.hushes (hchild db)⟩
  | blockJoin join left ih =>
    obtain ⟨_, hleft⟩ := ih h
    exact ⟨_, fun db => join.hushes (hleft db)⟩
  | indexJoin join left ih =>
    obtain ⟨_, hleft⟩ := ih h
    exact ⟨_, fun db => join.hushes (hleft db)⟩
  | hashJoin join left right ihLeft ihRight =>
    obtain ⟨hleft, hright⟩ := Bool.and_eq_true_iff.1 h
    obtain ⟨_, hleft⟩ := ihLeft hleft
    obtain ⟨_, hright⟩ := ihRight hright
    exact ⟨_, fun db => join.hushes (hleft db) (hright db)⟩

/-- **A closed tree is silent.** Whatever was done to it before, from closing to the next opening no
pull gives a tuple. The store may change all the while. -/
theorem silent_of_closed {p : Pipeline} (h : p.readsStore = true)
    {before after : List Operator.Event} {s : p.operator.State}
    (hhistory : p.operator.History p.operator.initial (before ++ .closed :: after) s)
    (hafter : ∀ event ∈ after, ∀ db answer, event ≠ .opened db answer) :
    ∀ event ∈ after, ∀ t, event.answer? ≠ some (.ok (some t)) := by
  obtain ⟨quiet, hquiet⟩ := hushes h
  obtain ⟨u, -, hrest⟩ := Operator.history_append_iff.1 hhistory
  obtain ⟨v, hclosed, hrest⟩ := Operator.history_cons_iff.1 hrest
  cases hclosed with
  | closed => exact Operator.Hushes.silent hquiet ((hquiet {}).close u) hafter hrest

/-- Pairs of integers of one table, by blocks of it. -/
def integers : Pipeline := .blockJoin BlockJoin.integers (.tableScan ⟨"r", [.integer "a"]⟩)

/-- The join is closed after its first pair, with the other left tuple waiting for its block. -/
def integersEvents : List Operator.Event :=
  let db := { store := BlockJoin.integersStore }
  [.opened db (.ok ()), .pulled db 0 (.ok (some ⟨[2, 0, 0, 0, 3, 0, 0, 0]⟩)), .closed,
    .pulled db 0 (.error (.notOpen "TableScan"))]

theorem exists_history_integers :
    ∃ s, integers.operator.History integers.operator.initial integersEvents s := by
  let m := BlockJoin.integers.machine (TableScan.operator ⟨"r", [.integer "a"]⟩)
  let name := "BlockNestedLoopJoin"
  -- The block takes the 2, the 3 has to wait, and 2 < 2 is tested before 2 < 3.
  exact ⟨_, .cons (.opened rfl) (.cons (.pulled
    ((m.guardedNext_of_again name rfl).trans <| (m.guardedNext_of_again name rfl).trans <|
      (m.guardedNext_of_again name rfl).trans <| (m.guardedNext_of_again name rfl).trans <|
      (m.guardedNext_of_again name rfl).trans <| (m.guardedNext_of_again name rfl).trans <|
      m.guardedNext_of_settled_ok name rfl))
    (.cons .closed (.cons (.pulled (m.guardedNext_of_settled_error name rfl)) .nil)))⟩

theorem silent_of_closed_integers :
    ∃ s, integers.operator.History integers.operator.initial integersEvents s ∧
      ∀ event ∈ integersEvents.drop 3, ∀ t, event.answer? ≠ some (.ok (some t)) := by
  obtain ⟨s, hhistory⟩ := exists_history_integers
  have hclosed : integersEvents = integersEvents.take 2 ++ .closed :: integersEvents.drop 3 := rfl
  refine ⟨s, hhistory, silent_of_closed rfl (hclosed ▸ hhistory) ?_⟩
  exact List.forall_mem_singleton.2 fun _ _ h => nomatch h

end Pipeline

end QueryEngine
