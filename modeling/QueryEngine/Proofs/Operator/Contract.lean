import QueryEngine.Proofs.Operator.Fault
import QueryEngine.Proofs.Operator.History
import QueryEngine.Proofs.Operator.Stream
import QueryEngine.Proofs.Outcome

/-!
# Contracts of operators

A contract is an invariant of an operator in two degrees. The weaker one holds of every state that
any calls lead to, and says what the tuples that are kept in it are. The stronger one holds while a
run is going on: from an opening to the first failure or to closing. What is known of the errors of
an operator is known of runs alone, since outside of them it may find its children closed.

* `Contract`: both degrees, over a database that may change between calls as the `Setting` says.
* `Operator.Keeps`: every call of an operator keeps a contract, and every tuple it gives is good.
  `Pulled.fold` extends this to taking in all tuples, and `Keeps.history` to histories.
* `Machine.Keeps`: the same for the steps of a machine, from which `Keeps.operator` gets it for the
  operator.
-/

namespace QueryEngine

open Operator (Event)

/-- What the calls on the operators of one tree take place in. -/
structure Setting where
  /-- What may become of the database from one call to the next. -/
  changes : Database → Database → Prop
  stays : ∀ {db db'}, changes db db' → changes db' db'
  /-- What the first pull of a run that fails may fail with. -/
  may : Error → Prop
  /-- What going back to the first row of a table in the middle of a run may fail with. -/
  refuses : Error → Prop

/-- An invariant that holds of all states that can be reached, and more of those in a run. -/
structure Contract (w : Setting) (σ : Type) where
  holds : (running : Bool) → Database → σ → Prop
  weaken : ∀ {db s}, holds true db s → holds false db s
  persists : ∀ {running db db' s}, w.changes db db' → holds running db s → holds running db' s

namespace Contract

variable {w : Setting} {σ τ : Type} {c : Contract w σ} {good : Tuple → Prop} {running : Bool}
  {db : Database} {s : σ}

theorem relax (h : c.holds running db s) : c.holds false db s := by
  cases running with
  | false => exact h
  | true => exact c.weaken h

theorem of_run (h : c.holds true db s) : c.holds running db s := by
  cases running with
  | false => exact c.weaken h
  | true => exact h

/-- Opening leads into a run. In the middle of a run it fails only where going back does. -/
def Starts (c : Contract w σ) (running : Bool) (db : Database) : Except Error Unit × σ → Prop
  | (.ok _, s) => c.holds true db s
  | (.error e, s) => (running = true → w.may e ∧ w.refuses e) ∧ c.holds false db s

/-- A pull goes on with the run, and gives a good tuple, or ends it with an error that may be. -/
def Pulls (c : Contract w σ) (good : Tuple → Prop) (running : Bool) (db : Database) :
    Pull σ → Prop
  | ⟨.ok none, s, _⟩ => c.holds running db s
  | ⟨.ok (some t), s, _⟩ => good t ∧ c.holds running db s
  | ⟨.error e, s, _⟩ => (running = true → w.may e) ∧ c.holds false db s

def Steps (c : Contract w σ) (good : Tuple → Prop) (running : Bool) (db : Database) :
    Step σ → Prop :=
  Step.Leads (c.holds running db) (c.Pulls good running db)

/-- Taking in all tuples goes on with the run, and makes something good, or ends it. -/
def Folds {β : Type} (c : Contract w σ) (good : β → Prop) (running : Bool) (db : Database) :
    Except Error β × σ × Nat → Prop
  | (.ok b, s, _) => good b ∧ c.holds running db s
  | (.error e, s, _) => (running = true → w.may e) ∧ c.holds false db s

/-- What is made of that goes on with the run as well, or ends it. -/
theorem Folds.bind {β γ : Type} {P : β → Prop} {Q : γ → Prop} {x : Except Error β × σ × Nat}
    (h : c.Folds P running db x) {f : β → Except Error γ} (hf : ∀ b, P b → Meets Q w.may (f b)) :
    c.Folds Q running db (x.1.bind f, x.2) := by
  obtain ⟨_ | b, s, n⟩ := x
  · exact h
  · have hb := hf b h.1
    show c.Folds Q running db (f b, s, n)
    cases hfb : f b with
    | error e =>
      rw [hfb] at hb
      exact ⟨fun _ => hb, c.relax h.2⟩
    | ok q =>
      rw [hfb] at hb
      exact ⟨hb, h.2⟩

/-- The contract of a part of the state. -/
def on (c : Contract w σ) (part : τ → σ) : Contract w τ where
  holds running db s := c.holds running db (part s)
  weaken := c.weaken
  persists := c.persists

def and (c d : Contract w σ) : Contract w σ where
  holds running db s := c.holds running db s ∧ d.holds running db s
  weaken h := ⟨c.weaken h.1, d.weaken h.2⟩
  persists hdb h := ⟨c.persists hdb h.1, d.persists hdb h.2⟩

/-- What does not depend on the database, nor on being in a run. -/
def always (w : Setting) (P : σ → Prop) : Contract w σ where
  holds _ _ s := P s
  weaken h := h
  persists _ h := h

/-- The flags of an operator that is in a run are those of one. -/
def guarded (c : Contract w σ) : Contract w (Machine.Guarded σ) where
  holds running db s :=
    c.holds running db s.body ∧ (running = true → s.opened = true ∧ s.failed = false)
  weaken h := ⟨c.weaken h.1, fun h => by cases h⟩
  persists hdb h := ⟨c.persists hdb h.1, h.2⟩

end Contract

/-- Every call keeps the contract, and every tuple given is good. -/
structure Operator.Keeps {w : Setting} (op : Operator) (c : Contract w op.State)
    (good : Tuple → Prop) : Prop where
  initial : ∀ {db}, w.changes db db → c.holds false db op.initial
  start : ∀ {running db s}, w.changes db db → c.holds running db s →
    c.Starts running db (op.start db s)
  next : ∀ {running db s}, w.changes db db → c.holds running db s → ∀ n,
    c.Pulls good running db (op.next db s n)
  close : ∀ {running db s}, c.holds running db s → c.holds false db (op.close s)

/-- Every pull keeps the contract, and every tuple given is good. -/
def Operator.Pulled {w : Setting} (op : Operator) (c : Contract w op.State)
    (good : Tuple → Prop) : Prop :=
  ∀ ⦃running db s⦄, w.changes db db → c.holds running db s → ∀ n,
    c.Pulls good running db (op.next db s n)

/-- Every step keeps the contract, and every tuple given is good. -/
structure Machine.Keeps {w : Setting} (m : Machine) (c : Contract w m.State)
    (good : Tuple → Prop) : Prop where
  initial : ∀ {db}, w.changes db db → c.holds false db m.initial
  start : ∀ {running db s}, w.changes db db → c.holds running db s →
    c.Starts running db (m.start db s)
  step : ∀ {running db s}, w.changes db db → c.holds running db s → ∀ n,
    c.Steps good running db (m.step db s n)
  close : ∀ {running db s}, c.holds running db s → c.holds false db (m.close s)

variable {w : Setting} {good : Tuple → Prop} {running : Bool} {db : Database}

/-! ## Machines -/

namespace Machine.Keeps

variable {m : Machine} {c : Contract w m.State}

theorem run (h : m.Keeps c good) (hdb : w.changes db db) {s : m.State}
    (hs : c.holds running db s) (n : Nat) : c.Pulls good running db (m.run db s n) :=
  m.leads_run (fun _ hs n => h.step hdb hs n) hs n

/-- The operator of a machine keeps what the machine does. -/
theorem operator (h : m.Keeps c good) (name : String) (schema : Schema) :
    (m.operator name schema).Keeps c.guarded good where
  initial hdb := ⟨h.initial hdb, fun h => by cases h⟩
  start {running db s} hdb hs := by
    show c.guarded.Starts running db (m.guardedStart db s)
    have hstart := h.start hdb hs.1
    rcases m.guardedStart_cases db s with ⟨e, body, hm, heq⟩ | ⟨body, hm, heq⟩ <;>
      rw [hm] at hstart <;> rw [heq]
    · exact ⟨hstart.1, hstart.2, fun h => by cases h⟩
    · exact ⟨hstart, fun _ => ⟨rfl, rfl⟩⟩
  next {running db s} hdb hs n := by
    show c.guarded.Pulls good running db (m.guardedNext name db s n)
    rcases m.guardedNext_cases name db s n with ⟨hfailed, heq⟩ | ⟨-, hopened, heq⟩ |
      ⟨-, -, answer, body, k, hm, heq⟩ <;> rw [heq]
    · refine ⟨fun hr => ?_, c.relax hs.1, fun h => by cases h⟩
      exact absurd hfailed (by simp [hs.2 hr])
    · refine ⟨fun hr => ?_, c.relax hs.1, fun h => by cases h⟩
      exact absurd hopened (by simp [hs.2 hr])
    · have hrun := h.run hdb hs.1 n
      rw [hm] at hrun
      rcases answer with e | _ | t
      · exact ⟨hrun.1, hrun.2, fun h => by cases h⟩
      · exact ⟨hrun, fun _ => ⟨rfl, rfl⟩⟩
      · exact ⟨hrun.1, hrun.2, fun _ => ⟨rfl, rfl⟩⟩
  close hs := ⟨h.close hs.1, fun h => by cases h⟩

end Machine.Keeps

/-! ## Taking in all tuples -/

namespace Operator

theorem Pulled.fold {op : Operator} {c : Contract w op.State} {s : op.State} {β : Type}
    {P : β → Prop} (h : op.Pulled c good) (hdb : w.changes db db)
    {f : β → Tuple → Except Error β} (hf : ∀ b t, P b → good t → Meets P w.may (f b t)) {b : β}
    (hb : P b) (hs : c.holds running db s) (n : Nat) :
    c.Folds P running db (op.fold f db b s n) := by
  fun_induction Operator.fold op f db b s n with
  | case1 b s n e s' n' hnext =>
    have := h hdb hs n
    rwa [hnext] at this
  | case2 b s n s' n' hnext =>
    have := h hdb hs n
    rw [hnext] at this
    exact ⟨hb, this⟩
  | case3 b s n t s' n' hnext e he =>
    have hpull := h hdb hs n
    have hfold := hf b t hb
    rw [hnext] at hpull
    rw [he] at hfold
    exact ⟨fun _ => hfold hpull.1, c.relax hpull.2⟩
  | case4 b s n t s' n' hnext b' hb' ih =>
    have hpull := h hdb hs n
    have hfold := hf b t hb
    rw [hnext] at hpull
    rw [hb'] at hfold
    exact ih (hfold hpull.1) hpull.2

/-- Whether a run is going on after a call. -/
def Event.inRun (before : Bool) (event : Event) : Bool :=
  match event with
  | .opened _ answer => answer.toBool
  | .closed => false
  | _ => before && event.failure?.isNone

/-- The database of the last of some calls, or the one before them. -/
def databaseAfter (db : Database) (events : List Event) : Database :=
  events.foldl (fun db event => event.database?.getD db) db

/-- The databases that calls are handed come of one another. -/
def Follows (changes : Database → Database → Prop) : Database → List Event → Prop
  | _, [] => True
  | db, event :: events =>
    (∀ db' ∈ event.database?, changes db db') ∧ Follows changes (event.database?.getD db) events

theorem follows_append_iff {changes : Database → Database → Prop} {events events' : List Event} :
    Follows changes db (events ++ events') ↔
      Follows changes db events ∧ Follows changes (databaseAfter db events) events' := by
  induction events generalizing db with
  | nil => exact ⟨fun h => ⟨trivial, h⟩, fun h => h.2⟩
  | cons event events ih => rw [List.cons_append, Follows, ih, Follows, and_assoc]; rfl

namespace Keeps

variable {op : Operator} {c : Contract w op.State} {s u : op.State} {events : List Event}

/-- What is good enough is given as well. -/
theorem mono {good' : Tuple → Prop} (h : op.Keeps c good) (himp : ∀ t, good t → good' t) :
    op.Keeps c good' where
  initial := h.initial
  start := h.start
  next {running db s} hdb hs n := by
    have hpulls := h.next hdb hs n
    rcases hnext : op.next db s n with ⟨_ | _ | t, s', n'⟩ <;> rw [hnext] at hpulls
    · exact hpulls
    · exact hpulls
    · exact ⟨himp t hpulls.1, hpulls.2⟩
  close := h.close

/-- Two contracts that are kept are kept together. -/
theorem and {d : Contract w op.State} {good' : Tuple → Prop} (h : op.Keeps c good)
    (h' : op.Keeps d good') : op.Keeps (c.and d) good where
  initial hdb := ⟨h.initial hdb, h'.initial hdb⟩
  start {running db s} hdb hs := by
    have hstarts := h.start hdb hs.1
    have hstarts' := h'.start hdb hs.2
    rcases hstart : op.start db s with ⟨_ | _, s'⟩ <;> rw [hstart] at hstarts hstarts'
    · exact ⟨hstarts.1, hstarts.2, hstarts'.2⟩
    · exact ⟨hstarts, hstarts'⟩
  next {running db s} hdb hs n := by
    have hpulls := h.next hdb hs.1 n
    have hpulls' := h'.next hdb hs.2 n
    rcases hnext : op.next db s n with ⟨_ | _ | t, s', n'⟩ <;> rw [hnext] at hpulls hpulls'
    · exact ⟨hpulls.1, hpulls.2, hpulls'.2⟩
    · exact ⟨hpulls, hpulls'⟩
    · exact ⟨hpulls.1, hpulls.2, hpulls'.2⟩
  close hs := ⟨h.close hs.1, h'.close hs.2⟩

theorem pulled (h : op.Keeps c good) : op.Pulled c good := fun _ _ _ => h.next

/-! ## Histories -/

/-- What one call keeps. -/
theorem answers (h : op.Keeps c good) {event : Event}
    (hdb : ∀ db' ∈ event.database?, w.changes db db') (hs : c.holds running db s)
    (hanswers : op.Answers s event u) :
    c.holds (event.inRun running) (event.database?.getD db) u ∧
      (∀ t, event.answer? = some (.ok (some t)) → good t) ∧
      ∀ e, event.failure? = some e → running = true → w.may e := by
  rcases hanswers.cases with ⟨db', answer, rfl, hstart⟩ | ⟨db', n, answer, n', hdb', ha, hnext⟩ |
    ⟨rfl, rfl⟩
  · have hchanges := hdb db' rfl
    have hstarts := h.start (w.stays hchanges) (c.persists hchanges hs)
    rw [hstart] at hstarts
    refine ⟨?_, by simp [Event.answer?], by simp [Event.failure?, Event.answer?]⟩
    cases answer with
    | ok a => exact hstarts
    | error e => exact hstarts.2
  · have hchanges := hdb db' hdb'
    have hpulls := h.next (w.stays hchanges) (c.persists hchanges hs) n
    rw [hnext] at hpulls
    have hrunning : event.inRun running = (running && event.failure?.isNone) := by
      cases event <;> simp [Event.answer?] at ha <;> rfl
    rw [hrunning, hdb', Event.failure?, ha, Option.getD_some]
    rcases answer with e | _ | t
    · refine ⟨by simpa using hpulls.2, by simp, fun e' he hr => ?_⟩
      obtain rfl : e = e' := Option.some.inj he
      exact hpulls.1 hr
    · have hholds : c.holds running db' u := hpulls
      exact ⟨by simpa using hholds, by simp, by simp⟩
    · refine ⟨by simpa using hpulls.2, fun t' ht => ?_, by simp⟩
      simp only [Option.some.injEq, Except.ok.injEq] at ht
      exact ht ▸ hpulls.1
  · exact ⟨h.close hs, by simp [Event.answer?], by simp [Event.failure?, Event.answer?]⟩

/-- What a history keeps. -/
theorem history (h : op.Keeps c good) (hdb : Follows w.changes db events)
    (hs : c.holds false db s) (hhistory : op.History s events u) :
    c.holds false (databaseAfter db events) u ∧
      ∀ event ∈ events, ∀ t, event.answer? = some (.ok (some t)) → good t := by
  induction hhistory generalizing db with
  | nil => exact ⟨hs, by simp⟩
  | cons first rest ih =>
    obtain ⟨hu, hgood, -⟩ := h.answers hdb.1 hs first
    obtain ⟨hv, hrest⟩ := ih hdb.2 (c.relax hu)
    refine ⟨hv, fun event hmem t ht => ?_⟩
    rcases List.mem_cons.1 hmem with rfl | hmem
    · exact hgood t ht
    · exact hrest event hmem t ht

/-- A call other than closing goes on with a run, unless it is a pull that fails. -/
theorem inRun_of_answers (h : op.Keeps c good) (hrefuses : ∀ e, ¬w.refuses e) {event : Event}
    (hdb : ∀ db' ∈ event.database?, w.changes db db') (hs : c.holds true db s)
    (hanswers : op.Answers s event u) (hclosed : event ≠ .closed) (hok : event.failure? = none) :
    event.inRun true = true := by
  cases hanswers with
  | closed => exact absurd rfl hclosed
  | @opened db' answer _ start =>
    cases answer with
    | ok => rfl
    | error e =>
      have hchanges := hdb db' rfl
      have hstarts := h.start (w.stays hchanges) (c.persists hchanges hs)
      rw [start] at hstarts
      exact (hrefuses e (hstarts.1 rfl).2).elim
  | pulled => simp [Event.inRun, hok]
  | pulledInto => simp [Event.inRun, hok]

/-- A run goes on until a pull fails or the operator is closed. -/
theorem run (h : op.Keeps c good) (hrefuses : ∀ e, ¬w.refuses e)
    (hdb : Follows w.changes db events) (hs : c.holds true db s)
    (hevents : ∀ event ∈ events, event ≠ .closed ∧ event.failure? = none)
    (hhistory : op.History s events u) : c.holds true (databaseAfter db events) u := by
  induction hhistory generalizing db with
  | nil => exact hs
  | cons first rest ih =>
    obtain ⟨⟨hclosed, hok⟩, hevents⟩ := List.forall_mem_cons.1 hevents
    have hu := (h.answers hdb.1 hs first).1
    rw [h.inRun_of_answers hrefuses hdb.1 hs first hclosed hok] at hu
    exact ih hdb.2 hu hevents

/-- The first failure of a run is one that may be. -/
theorem may_of_failure (h : op.Keeps c good) (hrefuses : ∀ e, ¬w.refuses e)
    {before : List Event} {db' : Database} {event : Event} {e : Error}
    (hdb : Follows w.changes db (before ++ .opened db' (.ok ()) :: (events ++ [event])))
    (hs : c.holds false db s)
    (hhistory : op.History s (before ++ .opened db' (.ok ()) :: (events ++ [event])) u)
    (hevents : ∀ event ∈ events, event ≠ .closed ∧ event.failure? = none)
    (he : event.failure? = some e) : w.may e := by
  obtain ⟨hbefore, hopened, hrun⟩ := follows_append_iff.1 hdb
  obtain ⟨hrun, hlast, -⟩ := follows_append_iff.1 hrun
  obtain ⟨s₁, hs₁, hrest⟩ := history_append_iff.1 hhistory
  obtain ⟨s₂, hs₂, hrest⟩ := history_cons_iff.1 hrest
  obtain ⟨s₃, hs₃, hrest⟩ := history_append_iff.1 hrest
  obtain ⟨s₄, hs₄, -⟩ := history_cons_iff.1 hrest
  have hstart := (h.answers hopened (h.history hbefore hs hs₁).1 hs₂).1
  exact (h.answers hlast (h.run hrefuses hrun hstart hevents hs₃) hs₄).2.2 e he rfl

end Keeps

end Operator

end QueryEngine
