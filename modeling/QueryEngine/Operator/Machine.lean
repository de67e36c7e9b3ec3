import QueryEngine.Operator.Basic

/-!
# Operators from machines

An operator that works through other operators takes many small steps before it has a tuple to
yield. A machine is the step alone; `Machine.run` takes steps until one of them settles the pull,
and `Machine.operator` adds what such operators have in common: they have to be opened, and once a
pull has failed every later one fails, until they are opened again.

* `Machine.progress`: a step that goes on, or yields, leads to a smaller state; `Machine.ofRank`
  gets this from a rank that drops.
* `Machine.transGen_of_run`: so does a whole run that yields.
-/

namespace QueryEngine

/-- One step: either the pull goes on, or it is settled. -/
inductive Step (σ : Type) where
  | again (state : σ) (reads : Nat)
  | settled (pull : Pull σ)

namespace Step

variable {σ : Type}

/-- A tuple to yield. -/
@[match_pattern] def emit (t : Tuple) (s : σ) (n : Nat) : Step σ := settled ⟨.ok (some t), s, n⟩

/-- No more tuples. -/
@[match_pattern] def finish (s : σ) (n : Nat) : Step σ := settled ⟨.ok none, s, n⟩

/-- An error. -/
@[match_pattern] def fail (e : Error) (s : σ) (n : Nat) : Step σ := settled ⟨.error e, s, n⟩

/-- The state from which a pull goes on, now or after a tuple was yielded. -/
def continuation : Step σ → Option σ
  | again s _ => some s
  | emit _ s _ => some s
  | _ => none

/-- The state `s'` is `s` one step later, in a pull that goes on or after one that yielded. -/
def Later (step : Database → σ → Nat → Step σ) (s' s : σ) : Prop :=
  ∃ db n, (step db s n).continuation = some s'

end Step

/-- An operator by its single steps. -/
structure Machine where
  State : Type
  initial : State
  start : Database → State → Except Error Unit × State
  step : Database → State → Nat → Step State
  close : State → State
  /-- No state steps and yields for ever. -/
  progress : WellFounded (Step.Later step)

namespace Machine

instance (m : Machine) : WellFoundedRelation m.State := ⟨Step.Later m.step, m.progress⟩

/-- Progress from a rank that drops with every step that goes on or yields. -/
theorem ofRank {σ ρ : Type} {step : Database → σ → Nat → Step σ} {r : ρ → ρ → Prop}
    (hr : WellFounded r) (rank : σ → ρ)
    (h : ∀ {db s n s'}, (step db s n).continuation = some s' → r (rank s') (rank s)) :
    WellFounded (Step.Later step) :=
  Subrelation.wf (fun ⟨_, _, hs⟩ => h hs) (InvImage.wf rank hr)

/-- Steps until one settles the pull. -/
def run (m : Machine) (db : Database) (s : m.State) (reads : Nat) : Pull m.State :=
  match _h : m.step db s reads with
  | .again s' n => run m db s' n
  | .settled pull => pull
termination_by s
decreasing_by exact ⟨db, reads, by rw [_h]; rfl⟩

theorem transGen_of_run {m : Machine} {db : Database} {s s' : m.State} {n n' : Nat} {t : Tuple}
    (h : m.run db s n = ⟨.ok (some t), s', n'⟩) : Relation.TransGen (Step.Later m.step) s' s := by
  fun_induction run m db s n with
  | case1 s n s₁ n₁ hs ih => exact .tail (ih h) ⟨db, n, by rw [hs]; rfl⟩
  | case2 s n pull hs => exact .single ⟨db, n, by rw [hs, h]; rfl⟩

/-- The state of a machine, with whether it was opened and whether a pull has failed since. -/
structure Guarded (σ : Type) where
  body : σ
  opened : Bool
  failed : Bool

/-- Pulls once, unless an earlier pull failed or the operator was never opened. Being pulled too
early is no failure. -/
def guardedNext (m : Machine) (name : String) (db : Database) (s : Guarded m.State) (reads : Nat) :
    Pull (Guarded m.State) :=
  if s.failed then ⟨.error (.aborted name), s, reads⟩
  else if s.opened then
    match m.run db s.body reads with
    | ⟨.error e, body, n⟩ => ⟨.error e, { s with body, failed := true }, n⟩
    | ⟨.ok answer, body, n⟩ => ⟨.ok answer, { s with body }, n⟩
  else ⟨.error (.notOpen name), s, reads⟩

/-- Opens the machine. An opening that fails part way leaves the flags as they were. -/
def guardedStart (m : Machine) (db : Database) (s : Guarded m.State) :
    Except Error Unit × Guarded m.State :=
  match m.start db s.body with
  | (.error e, body) => (.error e, { s with body })
  | (.ok _, body) => (.ok (), ⟨body, true, false⟩)

theorem transGen_of_guardedNext {m : Machine} {name : String} {s s' : Guarded m.State}
    (h : Pull.Later (m.guardedNext name) s' s) :
    Relation.TransGen (Step.Later m.step) s'.body s.body := by
  obtain ⟨db, n, n', t, h⟩ := h
  unfold guardedNext at h
  split at h
  · simp at h
  · split at h
    · split at h
      · simp at h
      · rename_i body k hr
        simp only [Pull.mk.injEq, Except.ok.injEq] at h
        obtain ⟨rfl, rfl, rfl⟩ := h
        exact transGen_of_run hr
    · simp at h

/-- The machine as an operator. -/
def operator (m : Machine) (name : String) (schema : Schema) : Operator where
  State := Guarded m.State
  name := name
  schema := schema
  initial := ⟨m.initial, false, false⟩
  start := m.guardedStart
  next := m.guardedNext name
  close s := { s with body := m.close s.body }
  finite := Subrelation.wf transGen_of_guardedNext (InvImage.wf Guarded.body m.progress.transGen)

end Machine

end QueryEngine
