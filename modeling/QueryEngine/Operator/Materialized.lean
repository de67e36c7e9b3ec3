import QueryEngine.Operator.Basic

/-!
# Tuples at hand

Leaves that read nothing: one without tuples, one that gives out a list of tuples once, and one
that gives out its list in every run but fails a single time.
-/

namespace QueryEngine

/-! ## No tuples -/

/-- The leaf without tuples. -/
structure Empty where
  schema : Schema
  deriving DecidableEq, Repr

namespace Empty

/-- The state is whether the leaf was ever opened. -/
def next (opened : Bool) : Except Error (Option Tuple) :=
  if opened then .ok none else .error (.notOpen "Empty")

def operator (e : Empty) : Operator where
  State := Bool
  name := "Empty"
  schema := e.schema
  initial := false
  start _ _ := (.ok (), true)
  next _ s n := ⟨next s, s, n⟩
  close s := s
  finite := ⟨fun s => ⟨s, fun _ ⟨_, _, _, _, h⟩ => by cases s <;> simp [next] at h⟩⟩

end Empty

/-! ## Tuples given out once -/

/-- The leaf that gives out a list of tuples once. -/
structure Materialized where
  schema : Schema
  tuples : List Tuple
  deriving DecidableEq, Repr

namespace Materialized

/-- The tuples of some rows. -/
def ofValues (schema : Schema) (rows : List (List Value)) : Except Error Materialized := do
  return ⟨schema, ← rows.mapM ({ schema } : Layout).encode⟩

/-- The tuples not yet given out, and whether the leaf was ever opened. -/
structure State where
  unread : List Tuple
  opened : Bool

/-- The number of tuples not yet given out. -/
def State.remaining (s : State) : Nat := s.unread.length

def next (s : State) : Except Error (Option Tuple) × State :=
  if s.opened then
    match s.unread with
    | [] => (.ok none, s)
    | t :: rest => (.ok (some t), { s with unread := rest })
  else (.error (.notOpen "Materialized"), s)

theorem remaining_next_lt {s s' : State} {t : Tuple} (h : next s = (.ok (some t), s')) :
    s'.remaining < s.remaining := by
  unfold next at h
  split at h
  · split at h <;> simp only [Prod.mk.injEq, reduceCtorEq, Except.ok.injEq, false_and] at h
    rename_i u rest hu
    obtain ⟨-, rfl⟩ := h
    simp [State.remaining, hu]
  · simp at h

/-- Neither opening nor closing brings back a tuple that was given out. -/
def operator (m : Materialized) : Operator where
  State := State
  name := "Materialized"
  schema := m.schema
  initial := ⟨m.tuples, false⟩
  start _ s := (.ok (), { s with opened := true })
  next _ s n := ⟨(next s).1, (next s).2, n⟩
  close s := s
  finite := Subrelation.wf
    (fun ⟨_, _, _, _, h⟩ => by
      simp only [Pull.mk.injEq] at h
      exact remaining_next_lt (Prod.ext h.1 h.2.1))
    (InvImage.wf State.remaining Nat.lt_wfRel.wf)

end Materialized

/-! ## A single failure -/

/-- The leaf that fails once, when it comes to the position `failAt`. -/
structure Failing where
  schema : Schema
  tuples : List Tuple
  failAt : Nat
  deriving DecidableEq, Repr

namespace Failing

/-- Where the leaf is, and whether it has failed its one time. -/
structure State where
  position : Nat
  opened : Bool
  fired : Bool

def next (f : Failing) (s : State) : Except Error (Option Tuple) × State :=
  if !s.opened then (.error (.notOpen "Failing"), s)
  else if !s.fired && s.position == f.failAt then
    (.error (.storage .readFailed), { s with fired := true })
  else
    match f.tuples[s.position]? with
    | none => (.ok none, s)
    | some t => (.ok (some t), { s with position := s.position + 1 })

theorem length_sub_next_lt {f : Failing} {s s' : State} {t : Tuple}
    (h : f.next s = (.ok (some t), s')) :
    f.tuples.length - s'.position < f.tuples.length - s.position := by
  unfold next at h
  split at h
  · simp at h
  · split at h
    · simp at h
    · split at h <;> simp only [Prod.mk.injEq, reduceCtorEq, Except.ok.injEq, false_and] at h
      rename_i u hu
      obtain ⟨-, rfl⟩ := h
      have := (List.getElem?_eq_some_iff.1 hu).1
      show f.tuples.length - (s.position + 1) < _
      omega

def operator (f : Failing) : Operator where
  State := State
  name := "Failing"
  schema := f.schema
  initial := ⟨0, false, false⟩
  start _ s := (.ok (), { s with position := 0, opened := true })
  next _ s n := ⟨(f.next s).1, (f.next s).2, n⟩
  close s := { s with opened := false }
  finite := Subrelation.wf
    (fun ⟨_, _, _, _, h⟩ => by
      simp only [Pull.mk.injEq] at h
      exact length_sub_next_lt (Prod.ext h.1 h.2.1))
    (InvImage.wf (fun s => f.tuples.length - s.position) Nat.lt_wfRel.wf)

end Failing

end QueryEngine
