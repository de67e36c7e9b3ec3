import QueryEngine.Pipeline
import QueryEngine.Proofs.Operator.Fault
import QueryEngine.Proofs.Operator.History

/-!
# The life of an operator

Operators can be called in any order. What a pull answers in the cases that are no part of a run is
the same for all of them, though each keeps it up in its own way: by a flag, a scanner that is not
there, or a child that does.

* `Operator.Dormant`: states before the first opening. Pulls there are refused and leave no trace.
* `Operator.StaysEnded`: the end is met again and again.
* `Machine.failed_of_history`: only opening makes up for a failure.
* `Pipeline.lifecycle`: all of this of pipelines, after any history.
-/

namespace QueryEngine

namespace Operator

variable {op : Operator} {s u : op.State} {events : List Event}

/-- States of an operator that was never opened: it answers so, stays as it is, and only opening
leads out of them. -/
structure Dormant (op : Operator) (dormant : op.State → Prop) : Prop where
  initial : dormant op.initial
  next : ∀ {s}, dormant s → ∀ db n, op.next db s n = ⟨.error (.notOpen op.name), s, n⟩
  start : ∀ {db s e u}, dormant s → op.start db s = (.error e, u) → dormant u
  close : ∀ {s}, dormant s → dormant (op.close s)

theorem Dormant.history {dormant : op.State → Prop} (h : op.Dormant dormant)
    (hevents : ∀ event ∈ events, event.isOpening = false) (hs : dormant s)
    (hhistory : op.History s events u) : dormant u := by
  refine hhistory.induction (fun s event u hmem hstep hs => ?_) hs
  rcases hstep.cases with ⟨db, answer, rfl, hstart⟩ | ⟨db, n, answer, n', -, -, hnext⟩ | ⟨-, rfl⟩
  · cases answer with
    | error e => exact h.start hs hstart
    | ok a => exact absurd (hevents _ hmem) (by simp [Event.isOpening])
  · rw [h.next hs db n] at hnext
    obtain ⟨-, rfl, -⟩ := Pull.mk.inj hnext
    exact hs
  · exact h.close hs

/-- Pulls of an operator that was never opened leave no trace: without them the same calls lead to
the same state. -/
theorem Dormant.history_filter {dormant : op.State → Prop} (h : op.Dormant dormant)
    (hevents : ∀ event ∈ events, event.isOpening = false) (hs : dormant s)
    (hhistory : op.History s events u) :
    op.History s (events.filter (·.answer?.isNone)) u := by
  induction hhistory with
  | nil => exact .nil
  | @cons s v u event events first rest ih =>
    have hfirst : ∀ e ∈ [event], e.isOpening = false := fun e he =>
      hevents e (List.mem_singleton.1 he ▸ List.mem_cons_self)
    have hv : dormant v := h.history hfirst hs (.cons first .nil)
    have hrest := ih (fun e he => hevents e (List.mem_cons_of_mem _ he)) hv
    cases ha : event.answer? with
    | none => rw [List.filter_cons_of_pos (by rw [ha]; rfl)]; exact .cons first hrest
    | some answer =>
      obtain ⟨db, n, n', -, hnext⟩ := first.exists_next ha
      rw [h.next hs db n] at hnext
      obtain ⟨-, rfl, -⟩ := Pull.mk.inj hnext
      rw [List.filter_cons_of_neg (by rw [ha]; simp)]
      exact hrest

/-- Once the end was met every pull meets it, and leaves everything as it is. -/
def StaysEnded (op : Operator) : Prop :=
  ∀ ⦃db s n u k⦄, op.next db s n = ⟨.ok none, u, k⟩ → ∀ db n, op.next db u n = ⟨.ok none, u, n⟩

theorem eq_of_ended (hs : ∀ db n, op.next db s n = ⟨.ok none, s, n⟩)
    (hevents : ∀ event ∈ events, event.answer?.isSome) (hhistory : op.History s events u) :
    u = s := by
  refine hhistory.induction (motive := fun u => u = s) (fun v event u hmem hstep hv => ?_) rfl
  subst hv
  obtain ⟨answer, ha⟩ := Option.isSome_iff_exists.1 (hevents event hmem)
  obtain ⟨db, n, n', -, hnext⟩ := hstep.exists_next ha
  rw [hs db n] at hnext
  exact (Pull.mk.inj hnext).2.1.symm

end Operator

namespace Machine

variable {m : Machine} {name : String} {schema : Schema} {events : List Operator.Event}

/-- A machine that was never opened. -/
theorem dormant (m : Machine) (name : String) (schema : Schema) :
    (m.operator name schema).Dormant fun s =>
      Guarded.opened s = false ∧ Guarded.failed s = false where
  initial := ⟨rfl, rfl⟩
  next {s} hs db n := by
    show m.guardedNext name db s n = _
    simp only [guardedNext, hs.1, hs.2, Bool.false_eq_true, if_false]
    rfl
  start {db s e u} hs h := by
    rcases m.guardedStart_cases db s with ⟨e, body, -, heq⟩ | ⟨body, -, heq⟩
    · obtain ⟨-, rfl⟩ := Prod.mk.inj (heq.symm.trans h)
      exact hs
    · cases (Prod.mk.inj (heq.symm.trans h)).1
  close hs := hs

/-- After a pull that did not fail the machine is open and has not failed. -/
theorem flags_of_next_ok {db : Database} {s u : Guarded m.State} {n k : Nat} {answer : Option Tuple}
    (h : m.guardedNext name db s n = ⟨.ok answer, u, k⟩) : u.opened = true ∧ u.failed = false := by
  rcases m.guardedNext_cases name db s n with ⟨-, heq⟩ | ⟨-, -, heq⟩ |
    ⟨-, -, answer, body, k, -, heq⟩ <;> obtain ⟨ha, rfl, -⟩ := Pull.mk.inj (heq.symm.trans h)
  · cases ha
  · cases ha
  · subst ha
    exact ⟨rfl, rfl⟩

/-- The end that a step meets is met again. -/
def StaysEnded (m : Machine) : Prop :=
  ∀ ⦃db s n u k⦄, m.step db s n = .finish u k → ∀ db n, m.step db u n = .finish u n

theorem StaysEnded.operator (h : m.StaysEnded) (name : String) (schema : Schema) :
    (m.operator name schema).StaysEnded := by
  intro db s n u k hnext db' n'
  have hrun := run_of_guardedNext (show m.guardedNext name db s n = ⟨.ok none, u, k⟩ from hnext)
  obtain ⟨hopened, hfailed⟩ := flags_of_next_ok hnext
  have hstep : ∃ s n k', m.step db s n = .finish u.body k' := by
    have hfinish : ∀ v k, m.run db s.body n = ⟨.ok none, v, k⟩ →
        ∃ s n, m.step db s n = .finish v k := by
      refine m.run_induction (motive := fun _ _ pull => ∀ v k, pull = ⟨.ok none, v, k⟩ →
        ∃ s n, m.step db s n = .finish v k) (fun _ _ _ _ _ _ ih => ih) ?_ s.body n
      rintro s n _ hs v k rfl
      exact ⟨s, n, hs⟩
    obtain ⟨s', n', hs'⟩ := hfinish _ _ hrun
    exact ⟨s', n', k, hs'⟩
  obtain ⟨s', n₁, k', hs'⟩ := hstep
  obtain ⟨body, opened, failed⟩ := u
  obtain rfl : opened = true := hopened
  obtain rfl : failed = false := hfailed
  exact guardedNext_of_settled_ok name (h hs' db' n')

/-- What a call does to the flags. -/
theorem flags_of_answers {s u : (m.operator name schema).State} {event : Operator.Event}
    (h : (m.operator name schema).Answers s event u) :
    Guarded.opened u = (Guarded.opened s || event.isOpening) ∧
      Guarded.failed u = (!event.isOpening &&
        (Guarded.failed s || (Guarded.opened s && event.failure?.isSome))) := by
  rcases h.cases with ⟨db, answer, rfl, hstart⟩ | ⟨db, n, answer, n', -, ha, hnext⟩ | ⟨rfl, rfl⟩
  · rcases m.guardedStart_cases db s with ⟨e, body, -, heq⟩ | ⟨body, -, heq⟩ <;>
      obtain ⟨rfl, rfl⟩ := Prod.mk.inj (heq.symm.trans hstart)
    · simp [Operator.Event.isOpening, Operator.Event.failure?, Operator.Event.answer?]
    · simp [Operator.Event.isOpening]
  · have hopening : event.isOpening = false := by
      cases event with
      | opened => simp [Operator.Event.answer?] at ha
      | _ => rfl
    have hfailure : event.failure?.isSome = !answer.toBool := by
      unfold Operator.Event.failure?
      rw [ha]
      cases answer <;> rfl
    rw [hopening, hfailure]
    rcases m.guardedNext_cases name db s n with ⟨hfailed, heq⟩ | ⟨hfailed, hopened, heq⟩ |
      ⟨hfailed, hopened, _, _, _, -, heq⟩ <;>
      obtain ⟨rfl, rfl, -⟩ := Pull.mk.inj (heq.symm.trans hnext)
    · simp [hfailed]
    · simp [hfailed, hopened]
    · simp [hfailed, hopened]
  · simp [Operator.Event.isOpening, Operator.Event.failure?, Operator.Event.answer?]
    exact ⟨rfl, rfl⟩

theorem opened_of_history {s u : (m.operator name schema).State}
    (h : (m.operator name schema).History s events u) :
    Guarded.opened u = (Guarded.opened s || events.any (·.isOpening)) := by
  induction h with
  | nil => rw [List.any_nil, Bool.or_false]
  | cons first rest ih => rw [ih, (flags_of_answers first).1, List.any_cons, Bool.or_assoc]

/-- Only opening makes up for a failure. -/
theorem failed_of_history {s u : (m.operator name schema).State}
    (h : (m.operator name schema).History s events u)
    (hevents : ∀ event ∈ events, event.isOpening = false) (hs : Guarded.failed s = true) :
    Guarded.failed u = true := by
  refine h.induction (motive := fun s => Guarded.failed s = true)
    (fun s event u hmem hstep hs => ?_) hs
  rw [(flags_of_answers hstep).2, hevents event hmem, hs]
  rfl

/-- A pull that failed after an opening is held against the machine. -/
theorem failed_of_failure {before after : List Operator.Event} {failure : Operator.Event}
    {s u : (m.operator name schema).State}
    (h : (m.operator name schema).History s (before ++ failure :: after) u)
    (hopened : ∃ event ∈ before, event.isOpening = true) (hfailure : failure.failure?.isSome = true)
    (hafter : ∀ event ∈ after, event.isOpening = false) : Guarded.failed u = true := by
  obtain ⟨v, hv, hrest⟩ := Operator.history_append_iff.1 h
  obtain ⟨w, hw, hrest⟩ := Operator.history_cons_iff.1 hrest
  have hv : Guarded.opened v = true := by
    rw [opened_of_history hv, List.any_eq_true.2 hopened, Bool.or_true]
  have hpull : failure.isOpening = false := by
    cases failure <;> simp [Operator.Event.failure?, Operator.Event.answer?] at hfailure <;> rfl
  refine failed_of_history hrest hafter ?_
  rw [(flags_of_answers hw).2, hpull, hv, hfailure]
  simp

end Machine

/-! ## Leaves -/

variable {db : Database} {n k : Nat}

namespace TableScan

theorem next_of_ended {s u : State} (h : next s = (.ok none, u)) : next u = (.ok none, u) := by
  unfold next at h
  split at h
  · cases (Prod.mk.inj h).1
  · rename_i scanner hs
    split at h
    · rename_i hdone
      obtain rfl := (Prod.mk.inj h).2
      unfold next
      simp only [hs, hdone, if_true]
    · split at h
      · cases (Prod.mk.inj h).1
      · obtain rfl := (Prod.mk.inj h).2
        rfl
      · cases (Prod.mk.inj h).1

theorem scanner_of_start_error {scan : TableScan} {s u : State} {e : Error} (hs : s.scanner = none)
    (h : scan.start db s = (.error e, u)) : u.scanner = none := by
  unfold start at h
  simp only [hs] at h
  split at h
  · obtain rfl := (Prod.mk.inj h).2
    exact hs
  · cases (Prod.mk.inj h).1

theorem dormant (scan : TableScan) : scan.operator.Dormant fun s => State.scanner s = none where
  initial := rfl
  next {s} hs db n := by
    obtain ⟨scanner, done⟩ := s
    obtain rfl : scanner = none := hs
    rfl
  start hs h := scanner_of_start_error hs h
  close _ := rfl

theorem staysEnded (scan : TableScan) : scan.operator.StaysEnded := by
  intro db s n u k h db' n'
  have hu := next_of_ended (Prod.ext (Pull.mk.inj h).1 (Pull.mk.inj h).2.1)
  exact congrArg (fun p => (⟨p.1, p.2, n'⟩ : Pull State)) hu

end TableScan

namespace IndexScan

theorem nextEntry_of_ended {s u : State} (h : nextEntry s = (.ok none, u)) :
    nextEntry u = (.ok none, u) := by
  unfold nextEntry at h
  split at h
  · cases (Prod.mk.inj h).1
  · rename_i scanner hs
    split at h
    · rename_i hdone
      obtain rfl := (Prod.mk.inj h).2
      unfold nextEntry
      simp only [hs, hdone, if_true]
    · split at h
      · obtain rfl := (Prod.mk.inj h).2
        rfl
      · cases (Prod.mk.inj h).1

theorem next_of_ended {scan : IndexScan} {s u : State} (h : scan.next db s n = ⟨.ok none, u, k⟩)
    (db' : Database) (n' : Nat) : scan.next db' u n' = ⟨.ok none, u, n'⟩ := by
  have hentry : nextEntry s = (.ok none, u) := by
    unfold next at h
    split at h
    · cases (Pull.mk.inj h).1
    · rename_i he
      obtain ⟨-, rfl, -⟩ := Pull.mk.inj h
      exact he
    · rename_i rowId _ _ _
      have ha := (Pull.mk.inj h).1
      cases hr : db.readTuple n scan.table rowId <;> simp [hr, Except.map] at ha
  rw [next, nextEntry_of_ended hentry]

theorem dormant (scan : IndexScan) : scan.operator.Dormant fun s => State.scanner s = none where
  initial := rfl
  next {s} hs db n := by
    obtain ⟨range, scanner, opened, done, fetched⟩ := s
    obtain rfl : scanner = none := hs
    rfl
  start {db s e u} _ h := by
    replace h : scan.reopen db { s with opened := true } = (.error e, u) := h
    unfold reopen at h
    split at h
    · obtain rfl := (Prod.mk.inj h).2
      rfl
    · cases (Prod.mk.inj h).1
  close _ := rfl

theorem staysEnded (scan : IndexScan) : scan.operator.StaysEnded :=
  fun _ _ _ _ _ h => next_of_ended h

end IndexScan

namespace Materialized

theorem next_of_ended {s u : State} (h : next s = (.ok none, u)) : next u = (.ok none, u) := by
  have hu : u = s := by
    unfold next at h
    split at h
    · split at h
      · exact (Prod.mk.inj h).2.symm
      · cases (Prod.mk.inj h).1
    · cases (Prod.mk.inj h).1
  rw [hu] at h ⊢
  exact h

theorem dormant (m : Materialized) : m.operator.Dormant fun s => State.opened s = false where
  initial := rfl
  next {s} hs db n := by
    obtain ⟨unread, opened⟩ := s
    obtain rfl : opened = false := hs
    rfl
  start _ h := by cases (Prod.mk.inj h).1
  close hs := hs

theorem staysEnded (m : Materialized) : m.operator.StaysEnded := by
  intro db s n u k h db' n'
  have hu := next_of_ended (Prod.ext (Pull.mk.inj h).1 (Pull.mk.inj h).2.1)
  exact congrArg (fun p => (⟨p.1, p.2, n'⟩ : Pull State)) hu

end Materialized

theorem Empty.dormant (leaf : Empty) : leaf.operator.Dormant fun s => s = false where
  initial := rfl
  next {s} hs db n := by
    obtain rfl : s = false := hs
    rfl
  start _ h := by cases (Prod.mk.inj h).1
  close hs := hs

theorem Empty.staysEnded (leaf : Empty) : leaf.operator.StaysEnded := by
  intro db s n u k h db' n'
  obtain ⟨ha, rfl, -⟩ := Pull.mk.inj h
  exact congrArg (fun a => (⟨a, s, n'⟩ : Pull Bool)) ha

namespace Failing

theorem next_of_ended {f : Failing} {s u : State} (h : f.next s = (.ok none, u)) :
    f.next u = (.ok none, u) := by
  have hu : u = s := by
    unfold next at h
    split at h
    · cases (Prod.mk.inj h).1
    · split at h
      · cases (Prod.mk.inj h).1
      · split at h
        · exact (Prod.mk.inj h).2.symm
        · cases (Prod.mk.inj h).1
  rw [hu] at h ⊢
  exact h

theorem dormant (f : Failing) : f.operator.Dormant fun s => State.opened s = false where
  initial := rfl
  next {s} hs db n := by
    obtain ⟨position, opened, fired⟩ := s
    obtain rfl : opened = false := hs
    rfl
  start _ h := by cases (Prod.mk.inj h).1
  close _ := rfl

theorem staysEnded (f : Failing) : f.operator.StaysEnded := by
  intro db s n u k h db' n'
  have hu := next_of_ended (Prod.ext (Pull.mk.inj h).1 (Pull.mk.inj h).2.1)
  exact congrArg (fun p => (⟨p.1, p.2, n'⟩ : Pull State)) hu

end Failing

/-! ## Inner operators -/

theorem Filter.staysEnded (f : Filter) (child : Operator) : (f.machine child).StaysEnded := by
  have hdone : ∀ {db s n u k}, f.step child db s n = .finish u k → u.done = true := by
    intro db s n u k h
    unfold step at h
    split at h
    · rename_i hdone
      cases h
      exact hdone
    · split at h
      · cases h
      · cases h
        rfl
      · split at h <;> cases h
  intro db s n u k h db' n'
  exact if_pos (hdone h)

theorem Project.step_of_ended (p : Project) {child : Operator} (hchild : child.StaysEnded)
    {s u : child.State} (h : p.step child db s n = .finish u k) (db' : Database) (n' : Nat) :
    p.step child db' u n' = .finish u n' := by
  have hnext : child.next db s n = ⟨.ok none, u, k⟩ := by
    unfold step at h
    split at h
    · cases h
    · rename_i hnext
      cases h
      exact hnext
    · split at h <;> cases h
  rw [step, hchild hnext db' n']

theorem Aggregate.step_of_ended (a : Aggregate) (child : Operator) {s u : State child.State}
    (h : a.step child db s n = .finish u k) (db' : Database) (n' : Nat) :
    a.step child db' u n' = .finish u n' := by
  have houtput : u.output = some [] := by
    unfold step at h
    split at h
    · split at h <;> cases h
    · rename_i houtput
      cases h
      exact houtput
    · cases h
  rw [step, houtput]

namespace BlockJoin

variable {join : BlockJoin} {left : Operator} {s u : State left.State}

theorem complete_ne_finish {pending : Option Tuple} : s.complete pending n ≠ .finish u k := by
  intro h
  unfold State.complete at h
  split at h <;> cases h

theorem done_of_fill (h : join.fill left db s n = .finish u k) : u.done = true := by
  unfold fill at h
  split at h
  · split at h
    · cases h
      rfl
    · exact absurd h complete_ne_finish
  · split at h
    · cases h
    · cases h
    · simp only at h
      split at h
      · exact absurd h complete_ne_finish
      · cases h

theorem done_of_step (h : join.step left db s n = .finish u k) : u.done = true := by
  unfold step at h
  split at h
  · rename_i hdone
    cases h
    exact hdone
  · split at h
    · exact done_of_fill h
    · unfold test at h
      split at h
      · cases h
      · cases h
      · split at h <;> cases h
    · cases h
    · split at h <;> cases h

theorem staysEnded (join : BlockJoin) (left : Operator) : (join.machine left).StaysEnded :=
  fun _ _ _ _ _ h _ _ => if_pos (done_of_step h)

end BlockJoin

namespace IndexJoin

variable {join : IndexJoin} {left : Operator} {s u : State left.State}

theorem done_of_step (h : join.step left db s n = .finish u k) : u.done = true := by
  unfold step at h
  split at h
  · rename_i hdone
    cases h
    exact hdone
  · split at h
    · unfold advance at h
      split at h
      · cases h
      · cases h
        rfl
      · split at h <;> cases h
    · unfold fetch at h
      split at h
      · cases h
      · cases h
      · split at h <;> cases h
    · unfold move at h
      split at h <;> cases h
    · cases h

theorem staysEnded (join : IndexJoin) (left : Operator) : (join.machine left).StaysEnded :=
  fun _ _ _ _ _ h _ _ => if_pos (done_of_step h)

end IndexJoin

theorem HashJoin.step_of_ended (join : HashJoin) (left right : Operator)
    {s u : State left.State right.State} (h : join.step left right db s n = .finish u k)
    (db' : Database) (n' : Nat) : join.step left right db' u n' = .finish u n' := by
  have hphase : u.phase = .joining [] none := by
    unfold step at h
    split at h
    · unfold spread at h
      split at h
      · cases h
      · split at h <;> cases h
    · rename_i hphase
      cases h
      exact hphase
    · split at h <;> cases h
    · split at h
      · simp only at h
        split at h <;> cases h
      · unfold readProbe at h
        split at h
        · cases h
        · cases h
        · split at h <;> cases h
  rw [step, hphase]

/-! ## Pipelines -/

namespace Pipeline

/-- Whether the root has children of its own. -/
def isInner : Pipeline → Bool
  | filter _ _ | project _ _ | aggregate _ _ | blockJoin _ _ | indexJoin _ _ | hashJoin _ _ _ =>
    true
  | _ => false

theorem staysEnded (p : Pipeline) : p.operator.StaysEnded := by
  induction p with
  | tableScan scan => exact scan.staysEnded
  | indexScan scan => exact scan.staysEnded
  | materialized leaf => exact leaf.staysEnded
  | empty leaf => exact leaf.staysEnded
  | failing leaf => exact leaf.staysEnded
  | filter f child => exact (f.staysEnded child.operator).operator _ _
  | project p child ih =>
    have hp : (p.machine child.operator).StaysEnded :=
      fun _ _ _ _ _ h => p.step_of_ended ih h
    exact hp.operator _ _
  | aggregate a child =>
    have ha : (a.machine child.operator).StaysEnded :=
      fun _ _ _ _ _ h => a.step_of_ended child.operator h
    exact ha.operator _ _
  | blockJoin join left => exact (join.staysEnded left.operator).operator _ _
  | indexJoin join left => exact (join.staysEnded left.operator).operator _ _
  | hashJoin join left right =>
    have hjoin : (join.machine left.operator right.operator).StaysEnded :=
      fun _ _ _ _ _ h => join.step_of_ended left.operator right.operator h
    exact hjoin.operator _ _

theorem exists_dormant (p : Pipeline) : ∃ dormant, p.operator.Dormant dormant := by
  cases p with
  | tableScan scan => exact ⟨_, scan.dormant⟩
  | indexScan scan => exact ⟨_, scan.dormant⟩
  | materialized leaf => exact ⟨_, leaf.dormant⟩
  | empty leaf => exact ⟨_, leaf.dormant⟩
  | failing leaf => exact ⟨_, leaf.dormant⟩
  | filter | project | aggregate | blockJoin | indexJoin | hashJoin =>
    exact ⟨_, Machine.dormant _ _ _⟩

/-- The root of a tree with children is a machine with flags. -/
theorem exists_machine {p : Pipeline} (h : p.isInner = true) :
    ∃ m name, p.operator = Machine.operator m name p.schema := by
  cases p with
  | tableScan | indexScan | materialized | empty | failing => simp [isInner] at h
  | filter f child =>
    exact ⟨f.machine child.operator, "Filter", by rw [schema, ← operator_schema]; rfl⟩
  | project | aggregate | blockJoin | indexJoin | hashJoin => exact ⟨_, _, rfl⟩

variable {p : Pipeline} {events before after : List Operator.Event} {s : p.operator.State}

/-- What the next pull answers after some calls, outside of runs. -/
structure Lifecycle (p : Pipeline) (events : List Operator.Event) (s : p.operator.State) :
    Prop where
  /-- Before the first opening pulls are refused. The refusals so far leave no trace. -/
  notOpen : (∀ event ∈ events, event.isOpening = false) →
    (∀ db n, p.operator.next db s n = ⟨.error (.notOpen p.operator.name), s, n⟩) ∧
      p.operator.History p.operator.initial (events.filter (·.answer?.isNone)) s
  /-- After a failure every pull fails, closed or not, until there is another opening. -/
  aborted : p.isInner = true → ∀ before failure after, events = before ++ failure :: after →
    (∃ event ∈ before, event.isOpening = true) → failure.failure?.isSome = true →
    (∀ event ∈ after, event.isOpening = false) →
    ∀ db n, p.operator.next db s n = ⟨.error (.aborted p.operator.name), s, n⟩
  /-- After the end pulls meet the end. -/
  ended : ∀ before last after, events = before ++ last :: after →
    last.answer? = some (.ok none) → (∀ event ∈ after, event.answer?.isSome = true) →
    ∀ db n, p.operator.next db s n = ⟨.ok none, s, n⟩
  /-- Pulling into a buffer is pulling. The buffer is what it was if there is no tuple. -/
  nextInto : ∀ db n buffer, p.operator.nextInto db s n buffer =
    let pull := p.operator.next db s n
    (pull.answer.map (·.isSome), (pull.answer.toOption.join).getD buffer, pull.state, pull.reads)

theorem next_of_failure (hinner : p.isInner = true) {failure : Operator.Event}
    (h : p.operator.History p.operator.initial (before ++ failure :: after) s)
    (hopened : ∃ event ∈ before, event.isOpening = true) (hfailure : failure.failure?.isSome = true)
    (hafter : ∀ event ∈ after, event.isOpening = false) (db : Database) (n : Nat) :
    p.operator.next db s n = ⟨.error (.aborted p.operator.name), s, n⟩ := by
  obtain ⟨m, name, hp⟩ := exists_machine hinner
  revert s
  rw [hp]
  intro s h
  exact if_pos (Machine.failed_of_failure h hopened hfailure hafter)

/-- **The lifecycle of a pipeline.** After any calls with any outcomes a pull is refused if the
pipeline was never opened; it fails if one failed since the last opening; and it meets the end if
the last calls were pulls that did. -/
theorem lifecycle (h : p.operator.History p.operator.initial events s) : p.Lifecycle events s where
  notOpen hevents := by
    obtain ⟨dormant, hdormant⟩ := p.exists_dormant
    have hs := hdormant.history hevents hdormant.initial h
    exact ⟨hdormant.next hs, hdormant.history_filter hevents hdormant.initial h⟩
  aborted hinner before failure after hevents hopened hfailure hafter := by
    subst hevents
    exact next_of_failure hinner h hopened hfailure hafter
  ended before last after hevents hlast hafter := by
    subst hevents
    obtain ⟨u, -, hrest⟩ := Operator.history_append_iff.1 h
    obtain ⟨v, hv, hrest⟩ := Operator.history_cons_iff.1 hrest
    obtain ⟨db, n, n', -, hnext⟩ := hv.exists_next hlast
    have hended := p.staysEnded hnext
    rw [Operator.eq_of_ended hended hafter hrest]
    exact hended
  nextInto db n buffer := by
    unfold Operator.nextInto
    rcases p.operator.next db s n with ⟨_ | _ | t, u, k⟩ <;> rfl

/-- An integer twice, in tuples that have room for one. -/
def doubled : Pipeline :=
  .project ⟨⟨[.integer "n"], 4⟩, [0, 0], [.integer "n", .integer "n"]⟩
    (.materialized ⟨[.integer "n"], [⟨[7, 0, 0, 0]⟩]⟩)

theorem lifecycle_doubled :
    ∃ s, doubled.operator.History doubled.operator.initial
      [.pulled {} 0 (.error (.notOpen "Project")), .opened {} (.ok ()),
        .pulled {} 0 (.error (.tupleTooLarge 8 4)), .closed] s ∧
      ∀ db n, doubled.operator.next db s n = ⟨.error (.aborted "Project"), s, n⟩ := by
  have hhistory : doubled.operator.History doubled.operator.initial
      [.pulled {} 0 (.error (.notOpen "Project")), .opened {} (.ok ()),
        .pulled {} 0 (.error (.tupleTooLarge 8 4)), .closed] _ :=
    .cons (.pulled rfl) (.cons (.opened rfl)
      (.cons (.pulled (Machine.guardedNext_of_settled_error "Project" rfl)) (.cons .closed .nil)))
  refine ⟨_, hhistory, (lifecycle hhistory).aborted rfl
    [.pulled {} 0 (.error (.notOpen "Project")), .opened {} (.ok ())] _ _ rfl ?_ rfl ?_⟩
  · exact ⟨_, List.mem_cons_of_mem _ List.mem_cons_self, rfl⟩
  · exact List.forall_mem_singleton.2 rfl

end Pipeline

end QueryEngine
