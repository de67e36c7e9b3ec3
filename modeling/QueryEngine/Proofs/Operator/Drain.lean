import QueryEngine.Proofs.Operator.Fault
import QueryEngine.Proofs.Operator.History
import QueryEngine.Proofs.Operator.Trial

/-!
# Machines on the way to their end

What holds of a machine while it is drained, and when it is at its end.

* `Machine.Confines`: an invariant of a machine over some databases, which holds after any calls of
  its operator (`Confines.history`) and in the middle of them (`Confines.visited`), with what is
  known of the tuples given. `Machine.Preserves` is one over any database.
* `Machine.Ends`: a machine that comes to its end without an error, with what is seen on the way and
  what is left. It tells more than a `Machine.Course`, which says nothing of the last state.
-/

namespace QueryEngine

/-! ## Invariants of machines -/

/-- The databases that calls are handed are some of these. -/
def Operator.Among (dbs : Database → Prop) (events : List Operator.Event) : Prop :=
  ∀ event ∈ events, ∀ db ∈ event.database?, dbs db

/-- All that can be done to a machine over some databases keeps a property of its states, and every
tuple given is good. -/
structure Machine.Confines (m : Machine) (dbs : Database → Prop) (P : m.State → Prop)
    (good : Tuple → Prop) : Prop where
  start : ∀ db s, dbs db → P s → P (m.start db s).2
  step : ∀ db s n, dbs db → P s → (m.step db s n).Leads P fun pull =>
    P pull.state ∧ ∀ t, pull.answer = .ok (some t) → good t
  close : ∀ s, P s → P (m.close s)

namespace Machine.Confines

variable {m : Machine} {dbs : Database → Prop} {P : m.State → Prop} {good : Tuple → Prop}
  {name : String} {schema : Schema} {s u : Guarded m.State}

theorem answers (h : m.Confines dbs P good) {event : Operator.Event}
    (hdbs : ∀ db ∈ event.database?, dbs db)
    (hanswers : (m.operator name schema).Answers s event u) (hs : P s.body) :
    P u.body ∧ ∀ t, event.answer? = some (.ok (some t)) → good t := by
  rcases hanswers.cases with ⟨db, answer, rfl, hstart⟩ | ⟨db, n, answer, n', hdb, ha, hnext⟩ |
    ⟨rfl, rfl⟩
  · refine ⟨?_, by simp [Operator.Event.answer?]⟩
    have hbody := h.start db s.body (hdbs db rfl) hs
    rcases m.guardedStart_cases db s with ⟨e, body, hm, heq⟩ | ⟨body, hm, heq⟩ <;>
      rw [hm] at hbody <;> obtain rfl := (Prod.mk.inj (heq.symm.trans hstart)).2 <;> exact hbody
  · simp only [ha, Option.some.injEq]
    rcases m.guardedNext_cases name db s n with ⟨-, heq⟩ | ⟨-, -, heq⟩ |
      ⟨-, -, _, body, k, hm, heq⟩ <;>
      obtain ⟨rfl, rfl, -⟩ := Pull.mk.inj (heq.symm.trans hnext)
    · exact ⟨hs, fun t ht => by cases ht⟩
    · exact ⟨hs, fun t ht => by cases ht⟩
    · have hrun := m.leads_run (fun s hs n => h.step db s n (hdbs db hdb) hs) hs n
      rwa [hm] at hrun
  · exact ⟨h.close s.body hs, by simp [Operator.Event.answer?]⟩

/-- What is kept holds after any calls, and they have given good tuples. -/
theorem history (h : m.Confines dbs P good) {s u : (m.operator name schema).State}
    {events : List Operator.Event} (hdbs : Operator.Among dbs events)
    (hhistory : (m.operator name schema).History s events u) (hs : P (Guarded.body s)) :
    P (Guarded.body u) ∧ ∀ event ∈ events, ∀ t, event.answer? = some (.ok (some t)) → good t := by
  induction hhistory with
  | nil => exact ⟨hs, fun _ h => nomatch h⟩
  | cons first rest ih =>
    obtain ⟨hfirst, hrest⟩ := List.forall_mem_cons.1 hdbs
    obtain ⟨hbody, hgood⟩ := h.answers hfirst first hs
    obtain ⟨hu, hgoods⟩ := ih hrest hbody
    exact ⟨hu, List.forall_mem_cons.2 ⟨hgood, hgoods⟩⟩

/-- It holds in the middle of a drain as well. -/
theorem visited (h : m.Confines dbs P good) {db : Database} (hdb : dbs db) {s : m.State}
    (hs : P s) (n : Nat) : ∀ u ∈ m.visited db s n, P u := by
  fun_induction Machine.visited m db s n with
  | case1 s n s' n' hstep ih =>
    have hleads := h.step db s n hdb hs
    rw [hstep] at hleads
    exact List.forall_mem_cons.2 ⟨hs, ih hleads⟩
  | case2 s n t s' n' hstep ih =>
    have hleads := h.step db s n hdb hs
    rw [hstep] at hleads
    exact List.forall_mem_cons.2 ⟨hs, ih hleads.1⟩
  | case3 => exact List.forall_mem_singleton.2 hs

end Machine.Confines

/-- All that can be done to a machine keeps a property of its states. -/
structure Machine.Preserves (m : Machine) (P : m.State → Prop) : Prop where
  start : ∀ db s, P s → P (m.start db s).2
  step : ∀ db s n, P s → (m.step db s n).Leads P fun pull => P pull.state
  close : ∀ s, P s → P (m.close s)

namespace Machine.Preserves

variable {m : Machine} {P : m.State → Prop} {name : String} {schema : Schema}

/-- Whatever the database is, and whatever is given. -/
theorem confines (h : m.Preserves P) : m.Confines (fun _ => True) P fun _ => True where
  start db s _ := h.start db s
  step db s n _ hs := by
    have hleads := h.step db s n hs
    cases hstep : m.step db s n with
    | again s' n' =>
      rw [hstep] at hleads
      exact hleads
    | settled pull =>
      rw [hstep] at hleads
      exact ⟨hleads, fun _ _ => trivial⟩
  close := h.close

/-- What is preserved holds after any calls. -/
theorem history (h : m.Preserves P) {s u : Guarded m.State} {events : List Operator.Event}
    (hhistory : (m.operator name schema).History s events u) (hs : P s.body) : P u.body :=
  (h.confines.history (fun _ _ _ _ => trivial) hhistory hs).1

/-- It holds in the middle of a drain as well. -/
theorem visited (h : m.Preserves P) (db : Database) {s : m.State} (hs : P s) (n : Nat) :
    ∀ u ∈ m.visited db s n, P u :=
  h.confines.visited trivial hs n

end Machine.Preserves

/-! ## Drains that come to their end -/

namespace Machine

variable {m : Machine} {db : Database} {β : Type} {seen : m.State → Option β} {s : m.State}
  {log : List β} {Q : m.State → Prop}

/-- From `s` on the machine goes to its end without an error; `log` is what `seen` finds in the
states that it steps from, and the last argument is where it ends. -/
inductive Drains (m : Machine) (db : Database) (seen : m.State → Option β) :
    m.State → Nat → List β → m.State → Prop where
  | more {s n s' n' log u}
    (step : m.step db s n = .again s' n' ∨ ∃ t, m.step db s n = .emit t s' n')
    (rest : Drains m db seen s' n' log u) : Drains m db seen s n ((seen s).toList ++ log) u
  | finish {s n u k} (step : m.step db s n = .finish u k) : Drains m db seen s n (seen s).toList u

theorem Drains.filterMap_visited {n : Nat} {u : m.State} (h : m.Drains db seen s n log u) :
    (m.visited db s n).filterMap seen = log := by
  have hcons : ∀ (s : m.State) l, (s :: l).filterMap seen = (seen s).toList ++ l.filterMap seen :=
    fun s l => by rw [List.filterMap_cons]; cases seen s <;> rfl
  induction h with
  | more step _ ih => rw [visited_of_continuation step, hcons, ih]
  | finish step =>
    have hvisited := @visited_of_end m db _ _ _ _ none step
    rw [hvisited, hcons, List.filterMap_nil, List.append_nil]

theorem Drains.exists_drain {n : Nat} {u : m.State} (h : m.Drains db seen s n log u)
    (name : String) (schema : Schema) : ∃ tuples k,
    (m.operator name schema).drain db ⟨s, true, false⟩ n = (tuples, none, ⟨u, true, false⟩, k) := by
  induction h with
  | @more s n s' n' log u step _ ih =>
    obtain ⟨tuples, k, hdrain⟩ := ih
    rcases step with step | ⟨t, step⟩
    · exact ⟨tuples, k, (Operator.drain_congr (guardedNext_of_again name step)).trans hdrain⟩
    · have hnext : (m.operator name schema).next db ⟨s, true, false⟩ n =
          ⟨.ok (some t), ⟨s', true, false⟩, n'⟩ := guardedNext_of_settled_ok name step
      refine ⟨t :: tuples, k, (Operator.drain_of_next_some hnext).trans ?_⟩
      rw [hdrain]
  | finish step =>
    exact ⟨[], _, Operator.drain_of_none (guardedNext_of_settled_ok name step)⟩

/-- However many fetches were counted before, the machine goes from `s` to its end, shows `log` on
the way, and ends in a state with `Q`. -/
def Ends (m : Machine) (db : Database) (seen : m.State → Option β) (s : m.State) (log : List β)
    (Q : m.State → Prop) : Prop :=
  ∀ n, ∃ u, m.Drains db seen s n log u ∧ Q u

namespace Ends

theorem of_again (h : ∀ n, ∃ s' n', m.step db s n = .again s' n' ∧ m.Ends db seen s' log Q) :
    m.Ends db seen s ((seen s).toList ++ log) Q := by
  intro n
  obtain ⟨s', n', hstep, hrest⟩ := h n
  obtain ⟨u, hdrains, hu⟩ := hrest n'
  exact ⟨u, .more (.inl hstep) hdrains, hu⟩

theorem of_again_unseen (hs : seen s = none)
    (h : ∀ n, ∃ s' n', m.step db s n = .again s' n' ∧ m.Ends db seen s' log Q) :
    m.Ends db seen s log Q := by
  have := of_again h
  rwa [hs] at this

theorem of_again_seen {b : β} (hs : seen s = some b)
    (h : ∀ n, ∃ s' n', m.step db s n = .again s' n' ∧ m.Ends db seen s' log Q) :
    m.Ends db seen s (b :: log) Q := by
  have := of_again h
  rwa [hs] at this

/-- A trial that does not fail. -/
theorem of_try {α : Type} {f : α → Except Error (Option Tuple)} {a : α} (hs : seen s = none)
    (ha : ∃ made, f a = .ok made)
    (h : ∀ n, ∃ s' n', m.step db s n = .trying (f a) s' n' ∧ m.Ends db seen s' log Q) :
    m.Ends db seen s log Q := by
  intro n
  obtain ⟨made, ha⟩ := ha
  obtain ⟨s', n', hstep, hrest⟩ := h n
  obtain ⟨u, hdrains, hu⟩ := hrest n'
  have hmore : m.step db s n = .again s' n' ∨ ∃ t, m.step db s n = .emit t s' n' := by
    rw [hstep, ha]
    cases made with
    | none => exact .inl rfl
    | some t => exact .inr ⟨t, rfl⟩
  have hdrained := Drains.more hmore hdrains
  rw [hs] at hdrained
  exact ⟨u, hdrained, hu⟩

theorem of_finish_unseen (hs : seen s = none)
    (h : ∀ n, ∃ u k, m.step db s n = .finish u k ∧ Q u) : m.Ends db seen s [] Q := by
  intro n
  obtain ⟨u, k, hstep, hu⟩ := h n
  have hdrained : m.Drains db seen s n _ u := .finish hstep
  rw [hs] at hdrained
  exact ⟨u, hdrained, hu⟩

end Ends

end Machine

end QueryEngine
