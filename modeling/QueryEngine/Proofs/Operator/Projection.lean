import QueryEngine.Proofs.Operator.Product
import QueryEngine.Proofs.Tuple.Projection

/-!
# Projections of streams

A projection pulls its child once for each pull of its own, and answers with what it makes of the
answer. So it gives as many tuples as its child, in the same order, until one cannot be made.

* `Project.next_eq`: one pull.
* `Project.results_eq`, `Project.outcome_eq_remake`: all pulls of a run, and of opening it before.
* `Project.schema_of_bind`: where the fields come from.
* `Project.keeps_fields`: projecting a tuple, and projecting a stream of them.
-/

namespace QueryEngine

namespace Project

variable {p : Project} {child : Operator} {db : Database} {input : Schema} {names : List String}
  {config : Config}

/-- A projection in a run, with the state of its child. -/
def running (p : Project) (child : Operator) (c : child.State) : (p.operator child).State :=
  ⟨c, true, false⟩

/-! ## One pull -/

/-- What a pull makes of the child's answer. -/
def report (p : Project) : Except Error (Option Tuple) → Except Error (Option Tuple)
  | .ok (some t) => (p.layout.project t p.positions).map some
  | last => last

/-- A pull pulls the child once. It fails if the child does, or if nothing can be made of its
tuple. -/
theorem next_eq (p : Project) (child : Operator) (db : Database) (c : child.State) (n : Nat) :
    (p.operator child).next db (p.running child c) n =
      let ⟨answer, c', n'⟩ := child.next db c n
      ⟨p.report answer, ⟨c', true, !(p.report answer).toBool⟩, n'⟩ := by
  have hstep : (p.machine child).step db c n = p.step child db c n := rfl
  rcases hnext : child.next db c n with ⟨e | _ | t, c', n'⟩
  · exact Machine.guardedNext_of_settled_error "Project" (by rw [hstep, step, hnext]; rfl)
  · exact Machine.guardedNext_of_settled_ok "Project" (by rw [hstep, step, hnext]; rfl)
  · cases ht : p.layout.project t p.positions with
    | error e =>
      simp only [report, ht, Except.map]
      exact Machine.guardedNext_of_settled_error "Project"
        (by simp only [hstep, step, hnext, ht]; rfl)
    | ok u =>
      simp only [report, ht, Except.map]
      exact Machine.guardedNext_of_settled_ok "Project" (by simp only [hstep, step, hnext, ht]; rfl)

/-! ## All pulls -/

/-- What is made of some tuples and of what stops them: one tuple of each, up to the first of which
none can be made. -/
def remake (make : Tuple → Except Error Tuple) (stop : Option Error) :
    List Tuple → List Tuple × Option Error
  | [] => ([], stop)
  | t :: tuples =>
    match make t with
    | .error e => ([], some e)
    | .ok u => (u :: (remake make stop tuples).1, (remake make stop tuples).2)

/-- Either something is made of every tuple, or there is a first one of which nothing can be. -/
theorem exists_remake (make : Tuple → Except Error Tuple) (stop : Option Error)
    (tuples : List Tuple) :
    ∃ taken rest, tuples = taken ++ rest ∧
      List.Forall₂ (fun t u => make t = .ok u) taken (remake make stop tuples).1 ∧
      (rest = [] ∧ (remake make stop tuples).2 = stop ∨
        ∃ t later e, rest = t :: later ∧ make t = .error e ∧
          (remake make stop tuples).2 = some e) := by
  induction tuples with
  | nil => exact ⟨[], [], rfl, .nil, .inl ⟨rfl, rfl⟩⟩
  | cons t tuples ih =>
    cases ht : make t with
    | error e =>
      simp only [remake, ht]
      exact ⟨[], t :: tuples, rfl, .nil, .inr ⟨t, tuples, e, rfl, ht, rfl⟩⟩
    | ok u =>
      obtain ⟨taken, rest, rfl, hmade, hstop⟩ := ih
      simp only [remake, ht]
      exact ⟨t :: taken, rest, rfl, .cons ht hmade, hstop⟩

/-- In a run, a projection makes tuples of what its child gives. -/
theorem results_eq (p : Project) (child : Operator) (db : Database) (c : child.State) (n : Nat) :
    (p.operator child).results db (p.running child c) n =
      remake (p.layout.project · p.positions) (child.results db c n).2
        (child.results db c n).1 := by
  induction c using child.finite.induction generalizing n with
  | h c ih =>
    have hpull := p.next_eq child db c n
    rcases hnext : child.next db c n with ⟨e | _ | t, c', n'⟩
    · rw [hnext] at hpull
      rw [Operator.results_of_error hnext, Operator.results_of_error hpull, remake]
    · rw [hnext] at hpull
      rw [Operator.results_of_none hnext, Operator.results_of_none hpull, remake]
    · simp only [hnext, report] at hpull
      rw [Operator.results_of_some hnext, remake]
      cases ht : p.layout.project t p.positions with
      | error e =>
        rw [ht] at hpull
        exact Operator.results_of_error hpull
      | ok u =>
        rw [ht] at hpull
        simp only [← ih c' ⟨_, _, _, _, hnext⟩ n']
        exact Operator.results_of_some hpull

theorem start_of_ok {s : (p.operator child).State} {c : child.State}
    (h : child.start db s.body = (.ok (), c)) :
    (p.operator child).start db s = (.ok (), p.running child c) :=
  Machine.start_of_ok h

/-- The same with the opening before. -/
theorem outcome_eq_remake (p : Project) (child : Operator) (s : (p.operator child).State)
    (n : Nat) :
    (p.operator child).outcome db s n =
      remake (p.layout.project · p.positions) (child.outcome db s.body n).2
        (child.outcome db s.body n).1 := by
  rcases hchild : child.start db s.body with ⟨e | ⟨⟩, c⟩
  · have hstart : (p.operator child).start db s = (.error e, _) := Machine.start_of_error hchild
    rw [Operator.outcome_of_error hchild, Operator.outcome_of_error hstart, remake]
  · rw [Operator.outcome_of_ok hchild, Operator.outcome_of_ok (start_of_ok hchild), results_eq]

/-! ## Names -/

theorem eq_of_bind (h : bind input names config = .ok p) :
    names ≠ [] ∧ ∃ found, names.mapM input.find = .ok found ∧
      p = ⟨⟨input, config.maxTupleSize⟩, found.map (·.1), found.map (·.2)⟩ := by
  simp only [bind, throw_eq_error, error_bind, refuse_eq_ok_iff, bind_eq_ok_iff, pure_eq_ok,
    Except.ok.injEq, List.isEmpty_iff] at h
  obtain ⟨hne, found, hfound, rfl⟩ := h
  exact ⟨hne, found, hfound, rfl⟩

/-- The fields of a projection are the child's at its positions. -/
theorem schema_of_bind (h : bind input names config = .ok p) :
    (∀ i ∈ p.positions, i < input.length) ∧ p.schema = itemsAt input p.positions := by
  obtain ⟨-, found, hfound, rfl⟩ := eq_of_bind h
  exact eq_itemsAt_of_forall₂ (forall₂_of_mapM_find hfound)

/-- How a projection goes on in a run, by what its child, in the state `c`, has still to give. -/
structure Streams (p : Project) (child : Operator) (db : Database) (c : child.State) (n : Nat) :
    Prop where
  /-- Each pull is one pull of the child. -/
  pull : (p.operator child).next db (p.running child c) n =
    let ⟨answer, c', n'⟩ := child.next db c n
    ⟨p.report answer, ⟨c', true, !(p.report answer).toBool⟩, n'⟩
  /-- All pulls together give one tuple for each of the child's, in their order, and come to the
  end of the child, unless a tuple before it is too long. -/
  all : ∃ taken rest, (child.results db c n).1 = taken ++ rest ∧
    List.Forall₂ (fun t u => p.layout.project t p.positions = .ok u) taken
      ((p.operator child).results db (p.running child c) n).1 ∧
    (rest = [] ∧ ((p.operator child).results db (p.running child c) n).2 =
        (child.results db c n).2 ∨
      ∃ t later size, rest = t :: later ∧
        p.layout.project t p.positions = .error (.tupleTooLarge size p.layout.maxTupleSize) ∧
        ((p.operator child).results db (p.running child c) n).2 =
          some (.tupleTooLarge size p.layout.maxTupleSize))

theorem streams {c : child.State} {n : Nat} (hin : ∀ i ∈ p.positions, i < p.layout.schema.length)
    (hrows : ∀ t ∈ (child.results db c n).1, t.IsRow p.layout.schema) :
    p.Streams child db c n := by
  refine ⟨p.next_eq child db c n, ?_⟩
  obtain ⟨taken, rest, htuples, hmade, hstop⟩ := exists_remake (p.layout.project · p.positions)
    (child.results db c n).2 (child.results db c n).1
  rw [results_eq]
  refine ⟨taken, rest, htuples, hmade, hstop.imp_right ?_⟩
  rintro ⟨t, later, e, rfl, ht, he⟩
  obtain ⟨row, hrow⟩ := hrows t (by simp [htuples])
  obtain rfl := Layout.eq_of_project_error (l := p.layout) hrow hin ht
  exact ⟨t, later, _, rfl, ht, he⟩

/-- **A projection keeps the fields that are asked for, byte for byte**: of a tuple that holds a
row, and of each tuple of a stream. -/
theorem keeps_fields :
    (∀ (l : Layout) t row positions, l.decode t = .ok row →
      (∀ i ∈ positions, i < l.schema.length) → l.Projects t row positions) ∧
    ∀ (child : Operator) names config p, bind child.schema names config = .ok p →
      p.layout = ⟨child.schema, config.maxTupleSize⟩ ∧
      (∀ i ∈ p.positions, i < child.schema.length) ∧
      p.schema = itemsAt child.schema p.positions ∧
      (∀ db s c, child.start db (Machine.Guarded.body s) = (.ok (), c) →
        (p.operator child).start db s = (.ok (), p.running child c)) ∧
      ∀ db c n, (∀ t ∈ (child.results db c n).1, t.IsRow child.schema) →
        p.Streams child db c n := by
  constructor
  · exact fun l t row positions => Layout.projects
  · intro child names config p hbind
    obtain ⟨hin, hschema⟩ := schema_of_bind hbind
    obtain ⟨-, found, -, rfl⟩ := eq_of_bind hbind
    exact ⟨rfl, hin, hschema, fun db s c => start_of_ok, fun db c n => streams hin⟩

/-- Two texts beside numbers, of which the second is too long to be kept twice. -/
theorem keeps_fields_texts :
    let l : Layout := ⟨[.integer "n", .text "s" 4], 16⟩
    let tuples : List Tuple :=
      [⟨[7, 0, 0, 0, 1, 0, 0, 0, 65]⟩, ⟨[8, 0, 0, 0, 3, 0, 0, 0, 65, 66, 67]⟩]
    let child := Materialized.operator ⟨l.schema, tuples⟩
    let p : Project := ⟨⟨l.schema, 12⟩, [1, 1], [.text "s" 4, .text "s" 4]⟩
    let c : child.State := ⟨tuples, true⟩
    l.decode ⟨[7, 0, 0, 0, 1, 0, 0, 0, 65]⟩ = .ok [.integer 7, .text [65]] ∧
      (∀ u, l.project ⟨[7, 0, 0, 0, 1, 0, 0, 0, 65]⟩ [1, 0, 1] = .ok u →
        (l.restrict [1, 0, 1]).decode u = .ok [.text [65], .integer 7, .text [65]]) ∧
      bind child.schema ["s", "s"] { maxTupleSize := 12 } = .ok p ∧
      (∀ t ∈ (child.results {} c 0).1, t.IsRow child.schema) ∧
      (p.operator child).results {} (p.running child c) 0 =
        ([⟨[1, 0, 0, 0, 65, 1, 0, 0, 0, 65]⟩], some (.tupleTooLarge 14 12)) ∧
      p.Streams child {} c 0 := by
  intro l tuples child p c
  have hrow : l.decode ⟨[7, 0, 0, 0, 1, 0, 0, 0, 65]⟩ = .ok [.integer 7, .text [65]] := by decide
  have hbind : bind child.schema ["s", "s"] { maxTupleSize := 12 } = .ok p := by rfl
  have hresults : child.results {} c 0 = (tuples, none) :=
    (Materialized.yields ⟨l.schema, tuples⟩ {} tuples).results_eq 0
  have hrows : ∀ t ∈ (child.results {} c 0).1, t.IsRow child.schema := by
    rw [hresults]
    simp only [tuples, List.forall_mem_cons, List.not_mem_nil, false_implies, implies_true,
      and_true]
    exact ⟨⟨_, hrow⟩, ⟨[.integer 8, .text [65, 66, 67]], by decide⟩⟩
  have hprojects := keeps_fields.1 l _ _ [1, 0, 1] hrow (by decide)
  obtain ⟨-, -, -, -, hstreams⟩ := keeps_fields.2 child _ _ p hbind
  refine ⟨hrow, hprojects.decodes, hbind, hrows, ?_, hstreams {} c 0 hrows⟩
  rw [results_eq, hresults]
  rfl

end Project

end QueryEngine
