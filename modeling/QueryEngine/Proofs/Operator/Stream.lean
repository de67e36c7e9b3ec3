import Mathlib.Tactic.Choose
import QueryEngine.Operator.Machine

/-!
# Streams

What an operator yields, apart from how often it is pulled and what else is fetched in between.

* `Operator.Yields` says that pulling from a state gives certain tuples and then ends, at the end
  of the stream or in an error. All ways of draining an operator follow it (`Yields.drain_eq`,
  `Yields.fold_fst`, `Yields.collectTuples_fst`), and it determines them (`Yields.unique`).
* `Machine.Course` is the same for the single steps of a machine. Besides the tuples it keeps a
  log of what is observed of the states that are stepped from, so that one induction over a machine
  gives both its stream (`Course.yields`) and its work (`Course.filterMap_visited`).
-/

namespace QueryEngine

namespace Operator

/-- What is answered after the last tuple of a stream: the end, or an error. -/
def ending : Option Error → Except Error (Option Tuple)
  | none => .ok none
  | some e => .error e

/-- What draining comes to: the tuples, or the error that they end in. -/
def drained (tuples : List Tuple) : Option Error → Except Error (List Tuple)
  | none => .ok tuples
  | some e => .error e

/-- Pulling from `s` gives the tuples one by one and then stops, whatever number of fetches was
counted before each pull. -/
def Yields (op : Operator) (db : Database) (stop : Option Error) : op.State → List Tuple → Prop
  | s, [] => ∀ n, ∃ s' n', op.next db s n = ⟨ending stop, s', n'⟩
  | s, t :: tuples =>
    ∀ n, ∃ s' n', op.next db s n = ⟨.ok (some t), s', n'⟩ ∧ Yields op db stop s' tuples

variable {op : Operator} {db : Database} {β : Type}

theorem drain_of_next_some {s s' : op.State} {n n' : Nat} {t : Tuple}
    (h : op.next db s n = ⟨.ok (some t), s', n'⟩) :
    op.drain db s n = (t :: (op.drain db s' n').1, (op.drain db s' n').2) := by
  rw [drain]
  split <;> simp_all

theorem drain_of_next_ending {s s' : op.State} {n n' : Nat} {stop : Option Error}
    (h : op.next db s n = ⟨ending stop, s', n'⟩) : op.drain db s n = ([], stop, s', n') := by
  rw [drain]
  cases stop <;> split <;> simp_all [ending]

theorem fold_of_next_some {f : β → Tuple → Except Error β} {b : β} {s s' : op.State} {n n' : Nat}
    {t : Tuple} (h : op.next db s n = ⟨.ok (some t), s', n'⟩) :
    (op.fold f db b s n).1 = (f b t).bind fun b => (op.fold f db b s' n').1 := by
  rw [fold]
  split <;> simp_all
  cases hf : f b t <;> simp [Except.bind]

namespace Yields

variable {stop : Option Error}

theorem drain_eq {s : op.State} {tuples : List Tuple} (h : op.Yields db stop s tuples) (n : Nat) :
    ∃ s' n', op.drain db s n = (tuples, stop, s', n') := by
  induction tuples generalizing s n with
  | nil =>
    obtain ⟨s', n', hn⟩ := h n
    exact ⟨s', n', drain_of_next_ending hn⟩
  | cons t tuples ih =>
    obtain ⟨s', n', hn, hrest⟩ := h n
    obtain ⟨s'', n'', hd⟩ := ih hrest n'
    exact ⟨s'', n'', by rw [drain_of_next_some hn, hd]⟩

/-- Taking in the tuples of a stream stops at the first error, of taking in or of the stream. -/
theorem fold_fst {s : op.State} {tuples : List Tuple} (h : op.Yields db none s tuples)
    (f : β → Tuple → Except Error β) (b : β) (n : Nat) :
    (op.fold f db b s n).1 = tuples.foldlM f b := by
  induction tuples generalizing s n b with
  | nil =>
    obtain ⟨s', n', hn⟩ := h n
    rw [fold]
    split <;> simp_all [ending, pure, Except.pure]
  | cons t tuples ih =>
    obtain ⟨s', n', hn, hrest⟩ := h n
    rw [fold_of_next_some hn, List.foldlM_cons]
    exact congrArg _ (funext fun b => ih hrest b n')

theorem collectTuples_fst {s s' : op.State} {tuples : List Tuple}
    (hs : op.start db s = (.ok (), s')) (h : op.Yields db stop s' tuples) (n : Nat) :
    (op.collectTuples db s n).1 = drained tuples stop := by
  obtain ⟨s'', n', hd⟩ := h.drain_eq n
  rw [collectTuples, hs]
  cases stop <;> simp [hd, drained]

/-- A state yields one stream. -/
theorem unique {stop' : Option Error} {s : op.State} {tuples tuples' : List Tuple}
    (h : op.Yields db stop s tuples) (h' : op.Yields db stop' s tuples') :
    tuples = tuples' ∧ stop = stop' := by
  obtain ⟨_, _, hd⟩ := h.drain_eq 0
  obtain ⟨_, _, hd'⟩ := h'.drain_eq 0
  rw [hd] at hd'
  simp only [Prod.mk.injEq] at hd'
  exact ⟨hd'.1, hd'.2.1⟩

end Yields

/-- Some pulls, none of which fails, lead from `s` to a state and give tuples on the way. -/
inductive Pulls (op : Operator) (db : Database) (s : op.State) : List Tuple → op.State → Prop where
  | refl : Pulls op db s [] s
  | more {tuples s' s'' n n' t} (before : Pulls op db s tuples s')
      (next : op.next db s' n = ⟨.ok (some t), s'', n'⟩) : Pulls op db s (tuples ++ [t]) s''
  | ended {tuples s' s'' n n'} (before : Pulls op db s tuples s')
      (next : op.next db s' n = ⟨.ok none, s'', n'⟩) : Pulls op db s tuples s''

/-- A number that goes up by one with every tuple, and not otherwise, counts the tuples. -/
theorem Pulls.count_eq {s s' : op.State} {tuples : List Tuple} (h : op.Pulls db s tuples s')
    (count : op.State → Nat)
    (hmore : ∀ s n s' n' t, op.next db s n = ⟨.ok (some t), s', n'⟩ → count s' = count s + 1)
    (hover : ∀ s n s' n', op.next db s n = ⟨.ok none, s', n'⟩ → count s' = count s) :
    count s' = count s + tuples.length := by
  induction h with
  | refl => rfl
  | more _ next ih => rw [hmore _ _ _ _ _ next, ih, List.length_append]; rfl
  | ended _ next ih => rw [hover _ _ _ _ next, ih]

end Operator

/-! ## Machines -/

/-- The step goes on from a state with `P`, or settles with a pull with `Q`. -/
def Step.Leads {σ : Type} (P : σ → Prop) (Q : Pull σ → Prop) : Step σ → Prop
  | .again s _ => P s
  | .settled pull => Q pull

namespace Machine

variable {m : Machine} {db : Database} {β : Type} {seen : m.State → Option β}

theorem run_of_again {s s' : m.State} {n n' : Nat} (h : m.step db s n = .again s' n') :
    m.run db s n = m.run db s' n' := by
  rw [run]
  split <;> simp_all

theorem run_of_settled {s : m.State} {n : Nat} {pull : Pull m.State}
    (h : m.step db s n = .settled pull) : m.run db s n = pull := by
  rw [run]
  split <;> simp_all

/-- What a run that settles a pull keeps, if every single step keeps it. -/
theorem run_induction {motive : m.State → Nat → Pull m.State → Prop}
    (again : ∀ s n s' n' pull, m.step db s n = .again s' n' → motive s' n' pull → motive s n pull)
    (settled : ∀ s n pull, m.step db s n = .settled pull → motive s n pull) (s : m.State)
    (n : Nat) : motive s n (m.run db s n) := by
  fun_induction run m db s n with
  | case1 s n s' n' h ih => exact again s n s' n' _ h ih
  | case2 s n pull h => exact settled s n pull h

/-- Where all steps lead, a run does. -/
theorem leads_run {P : m.State → Prop} {Q : Pull m.State → Prop}
    (h : ∀ s, P s → ∀ n, (m.step db s n).Leads P Q) {s : m.State} (hs : P s) (n : Nat) :
    Q (m.run db s n) := by
  refine m.run_induction (motive := fun s _ pull => P s → Q pull) ?_ ?_ s n hs
  · intro s n s' n' pull hstep ih hs
    have hleads := h s hs n
    rw [hstep] at hleads
    exact ih hleads
  · intro s n pull hstep hs
    have hleads := h s hs n
    rwa [hstep] at hleads

theorem start_of_ok {name : String} {schema : Schema} {s : Guarded m.State} {body : m.State}
    (h : m.start db s.body = (.ok (), body)) :
    (m.operator name schema).start db s = (.ok (), ⟨body, true, false⟩) := by
  show m.guardedStart db s = _
  simp only [guardedStart, h]
  rfl

theorem start_of_error {name : String} {schema : Schema} {s : Guarded m.State} {e : Error}
    {body : m.State} (h : m.start db s.body = (.error e, body)) :
    (m.operator name schema).start db s = (.error e, { s with body }) := by
  show m.guardedStart db s = _
  simp only [guardedStart, h]
  rfl

/-- What opening does: the flags change only if it succeeds. -/
theorem guardedStart_cases (m : Machine) (db : Database) (s : Guarded m.State) :
    (∃ e body, m.start db s.body = (.error e, body) ∧
        m.guardedStart db s = (.error e, { s with body })) ∨
      ∃ body, m.start db s.body = (.ok (), body) ∧
        m.guardedStart db s = (.ok (), ⟨body, true, false⟩) := by
  unfold guardedStart
  rcases m.start db s.body with ⟨e | _, body⟩
  · exact .inl ⟨e, body, rfl, rfl⟩
  · exact .inr ⟨body, rfl, rfl⟩

/-- What a pull does: it is refused, or the machine runs and fails if the run does. -/
theorem guardedNext_cases (m : Machine) (name : String) (db : Database) (s : Guarded m.State)
    (n : Nat) :
    (s.failed = true ∧ m.guardedNext name db s n = ⟨.error (.aborted name), s, n⟩) ∨
      (s.failed = false ∧ s.opened = false ∧
        m.guardedNext name db s n = ⟨.error (.notOpen name), s, n⟩) ∨
      s.failed = false ∧ s.opened = true ∧ ∃ answer body k, m.run db s.body n = ⟨answer, body, k⟩ ∧
        m.guardedNext name db s n = ⟨answer, ⟨body, true, !answer.toBool⟩, k⟩ := by
  obtain ⟨s, opened, failed⟩ := s
  cases failed with
  | true => exact .inl ⟨rfl, rfl⟩
  | false =>
    cases opened with
    | false => exact .inr (.inl ⟨rfl, rfl, rfl⟩)
    | true =>
      refine .inr (.inr ⟨rfl, rfl, _, _, _, rfl, ?_⟩)
      simp only [guardedNext, Bool.false_eq_true, if_false, if_true]
      rcases m.run db s n with ⟨_ | _, body, k⟩ <;> rfl

theorem guardedNext_of_again (name : String) {s s' : m.State} {n n' : Nat}
    (h : m.step db s n = .again s' n') :
    m.guardedNext name db ⟨s, true, false⟩ n = m.guardedNext name db ⟨s', true, false⟩ n' := by
  simp only [guardedNext, run_of_again h, if_true, Bool.false_eq_true, if_false]

theorem guardedNext_of_settled_ok (name : String) {s s' : m.State} {n n' : Nat}
    {answer : Option Tuple} (h : m.step db s n = .settled ⟨.ok answer, s', n'⟩) :
    m.guardedNext name db ⟨s, true, false⟩ n = ⟨.ok answer, ⟨s', true, false⟩, n'⟩ := by
  simp [guardedNext, run_of_settled h]

theorem guardedNext_of_settled_error (name : String) {s s' : m.State} {n n' : Nat} {e : Error}
    (h : m.step db s n = .settled ⟨.error e, s', n'⟩) :
    m.guardedNext name db ⟨s, true, false⟩ n = ⟨.error e, ⟨s', true, true⟩, n'⟩ := by
  simp [guardedNext, run_of_settled h]

/-- The states that a machine steps from when it is pulled from `s` on until it ends. -/
def visited (m : Machine) (db : Database) (s : m.State) (n : Nat) : List m.State :=
  match _h : m.step db s n with
  | .again s' n' => s :: visited m db s' n'
  | .emit _ s' n' => s :: visited m db s' n'
  | _ => [s]
termination_by s
decreasing_by all_goals exact ⟨db, n, by rw [_h]; rfl⟩

theorem visited_of_continuation {s s' : m.State} {n n' : Nat}
    (h : m.step db s n = .again s' n' ∨ ∃ t, m.step db s n = .emit t s' n') :
    m.visited db s n = s :: m.visited db s' n' := by
  rw [visited]
  rcases h with h | ⟨t, h⟩ <;> split <;> simp_all [Step.emit]

theorem visited_of_end {s s' : m.State} {n n' : Nat} {stop : Option Error}
    (h : m.step db s n = .settled ⟨Operator.ending stop, s', n'⟩) : m.visited db s n = [s] := by
  rw [visited]
  cases stop <;> split <;> simp_all [Operator.ending]

theorem mem_visited {s : m.State} {n : Nat} : s ∈ m.visited db s n := by
  rw [visited]
  split <;> exact List.mem_cons_self

/-- From `s` on the machine yields `tuples` and then stops; `log` is what `seen` finds in the states
that it steps from. -/
inductive Course (m : Machine) (db : Database) (seen : m.State → Option β) :
    m.State → List β → List Tuple → Option Error → Prop where
  | again {s log tuples stop} (s' : Nat → m.State) (k : Nat → Nat)
      (step : ∀ n, m.step db s n = .again (s' n) (k n))
      (rest : ∀ n, Course m db seen (s' n) log tuples stop) :
      Course m db seen s ((seen s).toList ++ log) tuples stop
  | emit {s log t tuples stop} (s' : Nat → m.State) (k : Nat → Nat)
      (step : ∀ n, m.step db s n = .emit t (s' n) (k n))
      (rest : ∀ n, Course m db seen (s' n) log tuples stop) :
      Course m db seen s ((seen s).toList ++ log) (t :: tuples) stop
  | settle {s stop} (s' : Nat → m.State) (k : Nat → Nat)
      (step : ∀ n, m.step db s n = .settled ⟨Operator.ending stop, s' n, k n⟩) :
      Course m db seen s (seen s).toList [] stop

namespace Course

variable {s : m.State} {log : List β} {tuples : List Tuple} {stop : Option Error}

/-- A step that goes on. -/
theorem of_again (h : ∀ n, ∃ s' n', m.step db s n = .again s' n' ∧
    m.Course db seen s' log tuples stop) :
    m.Course db seen s ((seen s).toList ++ log) tuples stop := by
  choose s' k step rest using h
  exact .again s' k step rest

/-- A step that goes on from a state without anything to log. -/
theorem of_again_unseen (hs : seen s = none) (h : ∀ n, ∃ s' n', m.step db s n = .again s' n' ∧
    m.Course db seen s' log tuples stop) : m.Course db seen s log tuples stop := by
  have := of_again h
  rwa [hs] at this

theorem of_emit {t : Tuple} (h : ∀ n, ∃ s' n', m.step db s n = .emit t s' n' ∧
    m.Course db seen s' log tuples stop) :
    m.Course db seen s ((seen s).toList ++ log) (t :: tuples) stop := by
  choose s' k step rest using h
  exact .emit s' k step rest

theorem of_ending (h : ∀ n, ∃ s' n', m.step db s n = .settled ⟨Operator.ending stop, s', n'⟩) :
    m.Course db seen s (seen s).toList [] stop := by
  choose s' k step using h
  exact .settle s' k step

theorem of_ending_unseen (hs : seen s = none)
    (h : ∀ n, ∃ s' n', m.step db s n = .settled ⟨Operator.ending stop, s', n'⟩) :
    m.Course db seen s [] [] stop := by
  have : m.Course db seen s (seen s).toList [] stop := of_ending h
  rwa [hs] at this

/-- The operator of a machine yields what the machine does. -/
theorem yields (h : m.Course db seen s log tuples stop) (name : String) (schema : Schema) :
    (m.operator name schema).Yields db stop ⟨s, true, false⟩ tuples := by
  induction h with
  | @again s log tuples stop s' k step rest ih =>
    cases tuples with
    | nil =>
      intro n
      obtain ⟨u, k', h⟩ := ih n (k n)
      exact ⟨u, k', (guardedNext_of_again name (step n)).trans h⟩
    | cons t tuples =>
      intro n
      obtain ⟨u, k', h, hrest⟩ := ih n (k n)
      exact ⟨u, k', (guardedNext_of_again name (step n)).trans h, hrest⟩
  | emit s' k step rest ih =>
    intro n
    exact ⟨⟨s' n, true, false⟩, k n, guardedNext_of_settled_ok name (step n), ih n⟩
  | @settle s stop s' k step =>
    intro n
    cases stop with
    | none => exact ⟨⟨s' n, true, false⟩, k n, guardedNext_of_settled_ok name (step n)⟩
    | some e => exact ⟨⟨s' n, true, true⟩, k n, guardedNext_of_settled_error name (step n)⟩

/-- Pulled to its end, the machine steps from states of which `seen` finds the log. -/
theorem filterMap_visited (h : m.Course db seen s log tuples stop) (n : Nat) :
    (m.visited db s n).filterMap seen = log := by
  have hcons : ∀ (s : m.State) l, (s :: l).filterMap seen = (seen s).toList ++ l.filterMap seen :=
    fun s l => by rw [List.filterMap_cons]; cases seen s <;> rfl
  induction h generalizing n with
  | again s' k step rest ih =>
    rw [visited_of_continuation (.inl (step n)), hcons, ih]
  | emit s' k step rest ih =>
    rw [visited_of_continuation (.inr ⟨_, step n⟩), hcons, ih]
  | settle s' k step =>
    rw [visited_of_end (step n), hcons, List.filterMap_nil, List.append_nil]

end Course

/-- A pull that succeeds is a run. -/
theorem run_of_guardedNext {name : String} {s s' : Guarded m.State} {n n' : Nat}
    {answer : Option Tuple} (h : m.guardedNext name db s n = ⟨.ok answer, s', n'⟩) :
    m.run db s.body n = ⟨.ok answer, s'.body, n'⟩ := by
  unfold guardedNext at h
  split at h
  · simp at h
  · split at h
    · split at h
      · simp at h
      · rename_i hr
        simp only [Pull.mk.injEq, Except.ok.injEq] at h
        obtain ⟨rfl, rfl, rfl⟩ := h
        exact hr
    · simp at h

/-- A number that goes up by one with every tuple a run gives, and not otherwise, counts the tuples
that the operator gives. -/
theorem count_eq_of_pulls {name : String} {schema : Schema}
    {s s' : Guarded m.State} {tuples : List Tuple}
    (h : (m.operator name schema).Pulls db s tuples s') (count : m.State → Nat)
    (hmore : ∀ s n s' n' t, m.run db s n = ⟨.ok (some t), s', n'⟩ → count s' = count s + 1)
    (hover : ∀ s n s' n', m.run db s n = ⟨.ok none, s', n'⟩ → count s' = count s) :
    count s'.body = count s.body + tuples.length := by
  exact h.count_eq (fun s => count s.body)
    (fun s n s' n' t h => hmore _ _ _ _ _ (run_of_guardedNext h))
    (fun s n s' n' h => hover _ _ _ _ (run_of_guardedNext h))

end Machine

end QueryEngine
