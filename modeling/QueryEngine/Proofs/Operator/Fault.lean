import QueryEngine.Proofs.Operator.Stream

/-!
# Runs that differ in a fault

Two runs of an operator are compared, of which the second has a source in which a call fails. Up to
that call they go the same way. What a source does after its failure is not compared, as an operator
that has failed does not go on.

* `Fault`: the states of two sources before the call that fails, and after it.
* `Operator.Faulty`, `Machine.Faulty`: sources, and machines, that differ in a fault.
* `Machine.Faulty.operator`: the operators of such machines differ in it too.
* `Operator.Faulty.drain_cases`: until it fails, the second source has given what the first gives.
* `Machine.Faulty.ends`: an operator that meets the fault has given a prefix, and has failed.
* `Machine.aborted_of_failed`: what failed answers that it was aborted until it is opened again.
* `Machine.drainWithin`: the drain of a machine, computed by a number of steps.
* `Operator.withFailure`: a source that fails at a given call and goes on as any other source may.
-/

namespace QueryEngine

/-- A fault with error `e` by which the second of two sources differs from the first. -/
structure Fault (e : Error) (σ τ : Type) where
  /-- The states of the two sources that are to be opened, which is not the call that fails. -/
  ready : σ → τ → Prop
  /-- The states of the two sources before the call. -/
  alike : σ → τ → Prop
  /-- The states of the second source after it. -/
  hit : τ → Prop
  /-- The numbers of fetches made before the call, if it is a fetch that fails. -/
  fine : Nat → Prop
  apart : ∀ s t, alike s t → ¬hit t

variable {e : Error} {σ τ : Type}

namespace Fault

/-- The call that fails was made. -/
def Struck (fault : Fault e σ τ) (t : τ) (reads : Nat) : Prop := fault.hit t ∨ ¬fault.fine reads

theorem not_struck {fault : Fault e σ τ} {s : σ} {t : τ} {n : Nat} (h : fault.alike s t)
    (hn : fault.fine n) : ¬fault.Struck t n := by
  rintro (hhit | hreads)
  · exact fault.apart s t h hhit
  · exact hreads hn

/-- A fault that can be met only by a fetch. -/
def reading (e : Error) (fine : Nat → Prop) : Fault e σ σ where
  ready := Eq
  alike := Eq
  hit _ := False
  fine := fine
  apart _ _ _ := not_false

/-- No fault. -/
def none (e : Error) : Fault e σ σ := .reading e fun _ => True

/-- The same fault in states of which the sources are a part, and the rest does not differ. -/
def inPart {S T ρ : Type} (fault : Fault e σ τ) (part : S → σ) (part' : T → τ) (rest : S → ρ)
    (rest' : T → ρ) : Fault e S T where
  ready s t := fault.ready (part s) (part' t) ∧ rest s = rest' t
  alike s t := fault.alike (part s) (part' t) ∧ rest s = rest' t
  hit t := fault.hit (part' t)
  fine := fault.fine
  apart s t h := fault.apart (part s) (part' t) h.1

/-- A fault in either of two sources. -/
def both {σ' τ' : Type} (f : Fault e σ τ) (g : Fault e σ' τ') : Fault e (σ × σ') (τ × τ') where
  ready s t := f.ready s.1 t.1 ∧ g.ready s.2 t.2
  alike s t := f.alike s.1 t.1 ∧ g.alike s.2 t.2
  hit t := f.hit t.1 ∨ g.hit t.2
  fine n := f.fine n ∧ g.fine n
  apart s t h := fun hhit => hhit.elim (f.apart s.1 t.1 h.1) (g.apart s.2 t.2 h.2)

theorem Struck.left {σ' τ' : Type} {f : Fault e σ τ} {t : τ} {n : Nat} (h : f.Struck t n)
    (g : Fault e σ' τ') (u : τ') : (f.both g).Struck (t, u) n :=
  h.imp .inl fun hn h => hn h.1

theorem Struck.right {σ' τ' : Type} {g : Fault e σ' τ'} {u : τ'} {n : Nat} (h : g.Struck u n)
    (f : Fault e σ τ) (t : τ) : (f.both g).Struck (t, u) n :=
  h.imp .inr fun hn h => hn h.2

end Fault

/-- Two pulls come to the same, or the second fails by the fault. -/
inductive Pull.Falters (fault : Fault e σ τ) : Pull σ → Pull τ → Prop where
  | same {answer : Except Error (Option Tuple)} {s : σ} {t : τ} {n : Nat}
      (states : fault.alike s t) (reads : fault.fine n) :
      Falters fault ⟨answer, s, n⟩ ⟨answer, t, n⟩
  | struck {p : Pull σ} {t : τ} {n : Nat} (h : fault.Struck t n) :
      Falters fault p ⟨.error e, t, n⟩

/-- Two steps come to the same, or the second fails by the fault. -/
inductive Step.Falters (fault : Fault e σ τ) : Step σ → Step τ → Prop where
  | again {s : σ} {t : τ} {n : Nat} (states : fault.alike s t) (reads : fault.fine n) :
      Falters fault (.again s n) (.again t n)
  | settled {p : Pull σ} {q : Pull τ} (pulls : p.Falters fault q) :
      Falters fault (.settled p) (.settled q)
  | struck {step : Step σ} {t : τ} {n : Nat} (h : fault.Struck t n) :
      Falters fault step (.fail e t n)

/-- Two operators over two databases that differ in a fault. -/
structure Operator.Faulty (op op' : Operator) (db db' : Database)
    (fault : Fault e op.State op'.State) : Prop where
  start : ∀ {s s' t}, fault.ready s t → op.start db s = (.ok (), s') →
    ∃ t', op'.start db' t = (.ok (), t') ∧ fault.alike s' t'
  next : ∀ {s t n}, fault.alike s t → fault.fine n →
    (op.next db s n).Falters fault (op'.next db' t n)

/-- Two machines over two databases that differ in a fault. -/
structure Machine.Faulty (m m' : Machine) (db db' : Database) (fault : Fault e m.State m'.State) :
    Prop where
  start : ∀ {s s' t}, fault.ready s t → m.start db s = (.ok (), s') →
    ∃ t', m'.start db' t = (.ok (), t') ∧ fault.alike s' t'
  step : ∀ {s t n}, fault.alike s t → fault.fine n →
    (m.step db s n).Falters fault (m'.step db' t n)

/-! ## Sources -/

namespace Operator

variable {op op' : Operator} {db db' : Database} {β : Type} {f : β → Tuple → Except Error β}
  {b b' : β} {s s' : op.State} {n n' : Nat} {tuple : Tuple}

theorem fold_of_error (h : op.next db s n = ⟨.error e, s', n'⟩) :
    op.fold f db b s n = (.error e, s', n') := by
  rw [fold]
  split <;> simp_all

theorem fold_of_none (h : op.next db s n = ⟨.ok none, s', n'⟩) :
    op.fold f db b s n = (.ok b, s', n') := by
  rw [fold]
  split <;> simp_all

theorem fold_of_refused (h : op.next db s n = ⟨.ok (some tuple), s', n'⟩)
    (hf : f b tuple = .error e) : op.fold f db b s n = (.error e, s', n') := by
  rw [fold]
  split <;> simp_all

theorem fold_of_taken (h : op.next db s n = ⟨.ok (some tuple), s', n'⟩)
    (hf : f b tuple = .ok b') : op.fold f db b s n = op.fold f db b' s' n' := by
  rw [fold]
  split <;> simp_all

theorem drain_of_error (h : op.next db s n = ⟨.error e, s', n'⟩) :
    op.drain db s n = ([], some e, s', n') :=
  drain_of_next_ending h

theorem drain_of_none (h : op.next db s n = ⟨.ok none, s', n'⟩) :
    op.drain db s n = ([], none, s', n') :=
  drain_of_next_ending h

theorem drain_congr (h : op.next db s n = op.next db s' n') :
    op.drain db s n = op.drain db s' n' := by
  rcases hnext : op.next db s' n' with ⟨e | _ | t, u, k⟩
  · rw [drain_of_error (h.trans hnext), drain_of_error hnext]
  · rw [drain_of_none (h.trans hnext), drain_of_none hnext]
  · rw [drain_of_next_some (h.trans hnext), drain_of_next_some hnext]

namespace Faulty

variable {fault : Fault e op.State op'.State} {s : op.State} {t : op'.State} {n : Nat}

theorem refl (op : Operator) (db : Database) (e : Error) : op.Faulty op db db (.none e) where
  start := by
    rintro s s' _ rfl h
    exact ⟨s', h, rfl⟩
  next := by
    rintro s _ n rfl -
    exact .same rfl trivial

/-- What the second source does when the first is pulled. -/
theorem next_cases (h : op.Faulty op' db db' fault) (hs : fault.alike s t) (hn : fault.fine n)
    {answer : Except Error (Option Tuple)} {u : op.State} {k : Nat}
    (hnext : op.next db s n = ⟨answer, u, k⟩) :
    (∃ v, op'.next db' t n = ⟨answer, v, k⟩ ∧ fault.alike u v ∧ fault.fine k) ∨
      ∃ v k, op'.next db' t n = ⟨.error e, v, k⟩ ∧ fault.Struck v k := by
  have hpull := h.next hs hn
  rw [hnext] at hpull
  generalize op'.next db' t n = q at hpull ⊢
  cases hpull with
  | same states reads => exact .inl ⟨_, rfl, states, reads⟩
  | struck h => exact .inr ⟨_, _, rfl, h⟩

/-- Taking in the tuples of both comes to the same, or fails by the fault with the second. -/
theorem fold_cases (h : op.Faulty op' db db' fault) (hs : fault.alike s t) (hn : fault.fine n)
    (f : β → Tuple → Except Error β) (b : β) :
    (∃ r u v k, op.fold f db b s n = (r, u, k) ∧ op'.fold f db' b t n = (r, v, k) ∧
      fault.alike u v ∧ fault.fine k) ∨
    ∃ v k, op'.fold f db' b t n = (.error e, v, k) ∧ fault.Struck v k := by
  fun_induction op.fold f db b s n generalizing t with
  | case1 b s n e u k hnext =>
    rcases h.next_cases hs hn hnext with ⟨v, hnext', hv, hk⟩ | ⟨v, k, hnext', hstruck⟩
    · exact .inl ⟨_, _, v, _, rfl, fold_of_error hnext', hv, hk⟩
    · exact .inr ⟨v, k, fold_of_error hnext', hstruck⟩
  | case2 b s n u k hnext =>
    rcases h.next_cases hs hn hnext with ⟨v, hnext', hv, hk⟩ | ⟨v, k, hnext', hstruck⟩
    · exact .inl ⟨_, _, v, _, rfl, fold_of_none hnext', hv, hk⟩
    · exact .inr ⟨v, k, fold_of_error hnext', hstruck⟩
  | case3 b s n tuple u k hnext e hrefused =>
    rcases h.next_cases hs hn hnext with ⟨v, hnext', hv, hk⟩ | ⟨v, k, hnext', hstruck⟩
    · exact .inl ⟨_, _, v, _, rfl, fold_of_refused hnext' hrefused, hv, hk⟩
    · exact .inr ⟨v, k, fold_of_error hnext', hstruck⟩
  | case4 b s n tuple u k hnext b' htaken ih =>
    rcases h.next_cases hs hn hnext with ⟨v, hnext', hv, hk⟩ | ⟨v, k, hnext', hstruck⟩
    · rw [fold_of_taken hnext' htaken]
      exact ih hv hk
    · exact .inr ⟨v, k, fold_of_error hnext', hstruck⟩

/-- Drained, both give the same, or the second fails by the fault after giving some of what the
first gives. -/
theorem drain_cases (h : op.Faulty op' db db' fault) (hs : fault.alike s t) (hn : fault.fine n) :
    (∃ tuples stop u v k, op.drain db s n = (tuples, stop, u, k) ∧
      op'.drain db' t n = (tuples, stop, v, k) ∧ fault.alike u v ∧ fault.fine k) ∨
    ∃ tuples v k, op'.drain db' t n = (tuples, some e, v, k) ∧
      tuples <+: (op.drain db s n).1 ∧ fault.Struck v k := by
  fun_induction op.drain db s n generalizing t with
  | case1 s n e u k hnext =>
    rcases h.next_cases hs hn hnext with ⟨v, hnext', hv, hk⟩ | ⟨v, k, hnext', hstruck⟩
    · exact .inl ⟨_, _, _, v, _, rfl, drain_of_error hnext', hv, hk⟩
    · exact .inr ⟨[], v, k, drain_of_error hnext', List.nil_prefix, hstruck⟩
  | case2 s n u k hnext =>
    rcases h.next_cases hs hn hnext with ⟨v, hnext', hv, hk⟩ | ⟨v, k, hnext', hstruck⟩
    · exact .inl ⟨_, _, _, v, _, rfl, drain_of_none hnext', hv, hk⟩
    · exact .inr ⟨[], v, k, drain_of_error hnext', List.nil_prefix, hstruck⟩
  | case3 s n tuple u k hnext tuples rest hrest ih =>
    rcases h.next_cases hs hn hnext with ⟨v, hnext', hv, hk⟩ | ⟨v, k, hnext', hstruck⟩
    · rw [drain_of_next_some hnext']
      rcases ih hv hk with
        ⟨_, stop, w, x, m, hdrain, hdrain', hw, hm⟩ | ⟨given, x, m, hdrain', hgiven, hm⟩
      · rw [hrest] at hdrain
        obtain ⟨rfl, rfl⟩ := Prod.mk.inj hdrain
        exact .inl ⟨_, _, _, x, _, rfl, by rw [hdrain'], hw, hm⟩
      · rw [hrest] at hgiven
        exact .inr ⟨tuple :: given, x, m, by rw [hdrain'],
          List.cons_prefix_cons.2 ⟨rfl, hgiven⟩, hm⟩
    · exact .inr ⟨[], v, k, drain_of_error hnext', List.nil_prefix, hstruck⟩

end Faulty

end Operator

/-! ## Machines -/

/-- The same flags over another state. -/
def Machine.Guarded.map (f : σ → τ) (s : Guarded σ) : Guarded τ := { s with body := f s.body }

/-- The same fault in machines that were made operators. -/
def Fault.guarded (fault : Fault e σ τ) : Fault e (Machine.Guarded σ) (Machine.Guarded τ) :=
  fault.inPart Machine.Guarded.body Machine.Guarded.body (fun s => (s.opened, s.failed))
    fun t => (t.opened, t.failed)

/-- The state after a step. -/
def Step.state : Step σ → σ
  | again s _ => s
  | settled p => p.state

/-- What is left of a state by pulling, closing, and attempts to open that fail. -/
inductive Operator.Unopened (op : Operator) (s : op.State) : op.State → Prop where
  | refl : Unopened op s s
  | next {u : op.State} (db : Database) (n : Nat) (before : Unopened op s u) :
    Unopened op s (op.next db u n).state
  | close {u : op.State} (before : Unopened op s u) : Unopened op s (op.close u)
  | refused {u v : op.State} {db : Database} {e : Error} (before : Unopened op s u)
    (start : op.start db u = (.error e, v)) : Unopened op s v

namespace Machine

variable {m m' : Machine} {db db' : Database} {fault : Fault e m.State m'.State} {n : Nat}
  {name : String} {schema schema' : Schema}

/-! ### Failing -/

theorem guardedNext_of_failed (db : Database) (n : Nat) {s : Guarded m.State}
    (h : s.failed = true) : m.guardedNext name db s n = ⟨.error (.aborted name), s, n⟩ := by
  rw [guardedNext, if_pos h]

theorem failed_of_unopened {s u : (m.operator name schema).State} (hs : Guarded.failed s = true)
    (h : (m.operator name schema).Unopened s u) : Guarded.failed u = true := by
  induction h with
  | refl => exact hs
  | @next u db n before ih =>
    show (m.guardedNext name db u n).state.failed = true
    rw [guardedNext_of_failed db n ih]
    exact ih
  | close before ih => exact ih
  | @refused u v db e before start ih =>
    have hstart : m.guardedStart db u = (.error e, v) := start
    unfold guardedStart at hstart
    split at hstart
    · obtain ⟨-, rfl⟩ := Prod.mk.inj hstart
      exact ih
    · cases (Prod.mk.inj hstart).1

/-- What has failed answers that it was aborted, until it is opened again. Pulling it leaves
everything as it is. -/
theorem aborted_of_failed {s u : (m.operator name schema).State} (hs : Guarded.failed s = true)
    (h : (m.operator name schema).Unopened s u) (db : Database) (n : Nat) :
    (m.operator name schema).next db u n = ⟨.error (.aborted name), u, n⟩ :=
  guardedNext_of_failed db n (failed_of_unopened hs h)

/-- What a pull says about the flags. -/
theorem flags_of_next {s u : Guarded m.State} {answer : Except Error (Option Tuple)} {k : Nat}
    (h : m.guardedNext name db s n = ⟨answer, u, k⟩) :
    u.opened = s.opened ∧ ((∃ t, answer = .ok t) → s.opened = true) ∧
      ((∃ e, answer = .error e) → s.opened = true → u.failed = true) := by
  unfold guardedNext at h
  split at h
  · obtain ⟨rfl, rfl, rfl⟩ := Pull.mk.inj h
    exact ⟨rfl, fun ⟨t, ht⟩ => (by cases ht), fun _ _ => ‹_›⟩
  · split at h
    · rename_i hopened
      split at h
      · obtain ⟨rfl, rfl, rfl⟩ := Pull.mk.inj h
        exact ⟨rfl, fun _ => hopened, fun _ _ => rfl⟩
      · obtain ⟨rfl, rfl, rfl⟩ := Pull.mk.inj h
        exact ⟨rfl, fun _ => hopened, fun ⟨e, he⟩ => (by cases he)⟩
    · rename_i hopened
      obtain ⟨rfl, rfl, rfl⟩ := Pull.mk.inj h
      exact ⟨rfl, fun ⟨t, ht⟩ => (by cases ht), fun _ h => (hopened h).elim⟩

/-- What can be drained without an error is open. -/
theorem opened_of_drain {s : (m.operator name schema).State}
    (h : ((m.operator name schema).drain db s n).2.1 = none) : Guarded.opened s = true := by
  rw [Operator.drain] at h
  split at h
  · cases h
  · rename_i hnext
    exact (flags_of_next hnext).2.1 ⟨_, rfl⟩
  · rename_i hnext
    exact (flags_of_next hnext).2.1 ⟨_, rfl⟩

/-- An open machine that stops in an error has failed. -/
theorem failed_of_drain {s u : (m.operator name schema).State} {tuples : List Tuple} {e : Error}
    {k : Nat} (hs : Guarded.opened s = true)
    (h : (m.operator name schema).drain db s n = (tuples, some e, u, k)) :
    Guarded.failed u = true := by
  fun_induction Operator.drain (m.operator name schema) db s n generalizing tuples with
  | case1 s n e' v k' hnext =>
    obtain ⟨-, -, rfl, -⟩ := h
    exact (flags_of_next hnext).2.2 ⟨_, rfl⟩ hs
  | case2 s n v k' hnext => simp at h
  | case3 s n tuple v k' hnext given rest hrest ih =>
    simp only [Prod.mk.injEq] at h
    obtain ⟨-, rfl⟩ := h
    exact ih ((flags_of_next hnext).1 ▸ hs) hrest

/-! ### Simulation -/

theorem Faulty.run (h : m.Faulty m' db db' fault) {s : m.State} {t : m'.State}
    (hs : fault.alike s t) (hn : fault.fine n) :
    (m.run db s n).Falters fault (m'.run db' t n) := by
  fun_induction m.run db s n generalizing t with
  | case1 s n s' n' hstep ih =>
    have hboth := h.step hs hn
    rw [hstep] at hboth
    generalize hstep' : m'.step db' t n = step' at hboth
    cases hboth with
    | again states reads =>
      rw [run_of_again hstep']
      exact ih states reads
    | struck hstruck =>
      rw [run_of_settled hstep']
      exact .struck hstruck
  | case2 s n p hstep =>
    have hboth := h.step hs hn
    rw [hstep] at hboth
    generalize hstep' : m'.step db' t n = step' at hboth
    cases hboth with
    | settled pulls =>
      rw [run_of_settled hstep']
      exact pulls
    | struck hstruck =>
      rw [run_of_settled hstep']
      exact .struck hstruck

/-- Operators of machines that differ in a fault differ in it too. -/
theorem Faulty.operator (h : m.Faulty m' db db' fault) (name : String) (schema schema' : Schema) :
    (m.operator name schema).Faulty (m'.operator name schema') db db' fault.guarded where
  start := by
    rintro s ⟨s', _, _⟩ t ⟨hs, -⟩ hstart
    have hstart : m.guardedStart db s = (.ok (), _) := hstart
    unfold guardedStart at hstart
    split at hstart
    · cases (Prod.mk.inj hstart).1
    · rename_i body hbody
      obtain ⟨-, rfl, rfl, rfl⟩ := hstart
      obtain ⟨t', hstart', ht'⟩ := h.start hs hbody
      refine ⟨⟨t', true, false⟩, ?_, ht', rfl⟩
      show m'.guardedStart db' t = _
      unfold guardedStart
      rw [hstart']
      rfl
  next := by
    rintro ⟨s, opened, failed⟩ ⟨t, _, _⟩ n ⟨hs, ⟨⟩⟩ hn
    show (m.guardedNext name db ⟨s, opened, failed⟩ n).Falters fault.guarded
      (m'.guardedNext name db' ⟨t, opened, failed⟩ n)
    cases failed with
    | true =>
      rw [guardedNext_of_failed db n rfl, guardedNext_of_failed db' n rfl]
      exact .same ⟨hs, rfl⟩ hn
    | false =>
      cases opened with
      | false => exact .same ⟨hs, rfl⟩ hn
      | true =>
        have hrun := h.run hs hn
        simp only [guardedNext, Bool.false_eq_true, if_false, if_true]
        generalize m.run db s n = p at hrun ⊢
        generalize m'.run db' t n = q at hrun ⊢
        cases hrun with
        | struck hstruck => exact .struck hstruck
        | @same answer u v k states reads =>
          cases answer with
          | error e => exact .same ⟨states, rfl⟩ reads
          | ok answer => exact .same ⟨states, rfl⟩ reads

/-- **A fault that is met ends the run.** An operator that is opened and drained is opened with the
fault too. What it gives before it meets the fault is a prefix of what it gives otherwise, the error
is that of the fault, and it goes on only when it is opened again. -/
theorem Faulty.ends (h : m.Faulty m' db db' fault) {s a a' : (m.operator name schema).State}
    {t : (m'.operator name schema').State} (hs : fault.guarded.ready s t) (hn : fault.fine n)
    (hopen : (m.operator name schema).start db s = (.ok (), a)) {given : List Tuple} {n' : Nat}
    (hdrain : (m.operator name schema).drain db a n = (given, none, a', n'))
    {reached : (m'.operator name schema').State → Nat → Prop} {early : Prop}
    (hreached : ∀ u k, reached u k → fault.guarded.Struck u k)
    (hearly : early → ∀ b tuples stop u k, fault.guarded.alike a b →
      (m'.operator name schema').drain db' b n = (tuples, stop, u, k) →
        fault.guarded.Struck u k → tuples = []) :
    ∃ b, (m'.operator name schema').start db' t = (.ok (), b) ∧
      ∀ tuples stop u k, (m'.operator name schema').drain db' b n = (tuples, stop, u, k) →
        reached u k → tuples <+: given ∧ (early → tuples = []) ∧ stop = some e ∧
          ∀ v, (m'.operator name schema').Unopened u v →
            ∀ db n, (m'.operator name schema').next db v n = ⟨.error (.aborted name), v, n⟩ := by
  have hboth := h.operator name schema schema'
  obtain ⟨b, hb, hab⟩ := hboth.start hs hopen
  refine ⟨b, hb, fun tuples stop u k hdrain' hu => ?_⟩
  have hstruck := hreached u k hu
  rcases hboth.drain_cases hab hn with
    ⟨_, _, _, _, _, -, hsame, hv, hk⟩ | ⟨given', v, k', hfailed, hgiven, -⟩
  · rw [hdrain'] at hsame
    obtain ⟨-, -, rfl, rfl⟩ := hsame
    exact (Fault.not_struck hv hk hstruck).elim
  · have hopened : Guarded.opened b = true :=
      (Prod.mk.inj hab.2).1.symm.trans (opened_of_drain (by rw [hdrain]))
    rw [hdrain'] at hfailed
    rw [hdrain] at hgiven
    obtain ⟨rfl, rfl, rfl, rfl⟩ := hfailed
    exact ⟨hgiven, fun early => hearly early b _ _ u k hab hdrain' hstruck, rfl,
      fun v hv => aborted_of_failed (failed_of_drain hopened hdrain') hv⟩

/-! ### Faults before anything is yielded -/

/-- What every step keeps is kept to the end. -/
theorem drain_induction {motive : m.State → Prop}
    (step : ∀ s n, motive s → motive (m.step db s n).state) (s : (m.operator name schema).State)
    (n : Nat) (h : motive (Guarded.body s)) :
    motive (Guarded.body ((m.operator name schema).drain db s n).2.2.1) := by
  have hrun : ∀ s n, motive s → motive (m.run db s n).state := by
    intro s n
    refine run_induction (motive := fun s n pull => motive s → motive pull.state) ?_ ?_ s n
    · intro s n s' n' pull hstep ih hs
      have hs' := step s n hs
      rw [hstep] at hs'
      exact ih hs'
    · intro s n pull hstep hs
      have hs' := step s n hs
      rwa [hstep] at hs'
  have hnext : ∀ (s : (m.operator name schema).State) n, motive (Guarded.body s) →
      motive (Guarded.body ((m.operator name schema).next db s n).state) := by
    intro s n hs
    show motive (m.guardedNext name db s n).state.body
    have hs' := hrun s.body n hs
    unfold guardedNext
    split
    · exact hs
    · split
      · split <;> rename_i hpull <;> rwa [hpull] at hs'
      · exact hs
  fun_induction Operator.drain (m.operator name schema) db s n with
  | case1 s n e u k hpull =>
    have hu := hnext s n h
    rwa [hpull] at hu
  | case2 s n u k hpull =>
    have hu := hnext s n h
    rwa [hpull] at hu
  | case3 s n tuple u k hpull given rest hrest ih =>
    have hu := hnext s n h
    rw [hpull] at hu
    have := ih hu
    rwa [hrest] at this

/-- If nothing can fail by the fault once a tuple was yielded, none is yielded when it does. -/
theorem Faulty.drain_eq_nil (h : m.Faulty m' db db' fault) (hfine : ∀ n, fault.fine n)
    (late : m'.State → Prop)
    (hemit : ∀ s n t u k, m'.step db' s n = .emit t u k → late u)
    (hlate : ∀ s n, late s ∧ ¬fault.hit s →
      late (m'.step db' s n).state ∧ ¬fault.hit (m'.step db' s n).state)
    {s : (m.operator name schema).State} {t : (m'.operator name schema').State}
    (hs : fault.guarded.alike s t) {tuples : List Tuple} {stop : Option Error}
    {u : (m'.operator name schema').State} {k : Nat}
    (hdrain : (m'.operator name schema').drain db' t n = (tuples, stop, u, k))
    (hstruck : fault.guarded.Struck u k) : tuples = [] := by
  have hrun : ∀ s n, ∀ x v k, m'.run db' s n = ⟨.ok (some x), v, k⟩ → late v := by
    intro s n
    refine run_induction (motive := fun _ _ pull => ∀ x v k, pull = ⟨.ok (some x), v, k⟩ → late v)
      (fun _ _ _ _ _ _ ih => ih) ?_ s n
    rintro s n _ hstep x v k rfl
    exact hemit s n x v k hstep
  cases tuples with
  | nil => rfl
  | cons x given =>
    rw [Operator.drain] at hdrain
    split at hdrain
    · cases (Prod.mk.inj hdrain).1
    · cases (Prod.mk.inj hdrain).1
    · rename_i v k' hnext
      have hboth := (h.operator name schema schema').next hs (hfine n)
      rw [hnext] at hboth
      generalize (m.operator name schema).next db s n = p at hboth
      -- the tuple was yielded before the fault
      have hv : ¬fault.hit (Guarded.body v) := by
        cases hboth with
        | same states reads => exact fault.apart _ _ states.1
      have hkept := drain_induction (motive := fun u => late u ∧ ¬fault.hit u) hlate v k'
        ⟨hrun _ _ _ _ _ (run_of_guardedNext hnext), hv⟩
      rw [(Prod.mk.inj hdrain).2] at hkept
      rcases hstruck with hhit | hreads
      · exact (hkept.2 hhit).elim
      · exact (hreads (hfine k)).elim

/-! ### Runs that are computed -/

/-- The drain of an open machine, if it takes fewer than so many steps. -/
def drainWithin (m : Machine) (db : Database) :
    Nat → m.State → Nat → Option (List Tuple × Option Error × Guarded m.State × Nat)
  | 0, _, _ => none
  | fuel + 1, s, n =>
    match m.step db s n with
    | .again s n => drainWithin m db fuel s n
    | .settled ⟨.error e, s, n⟩ => some ([], some e, ⟨s, true, true⟩, n)
    | .settled ⟨.ok none, s, n⟩ => some ([], none, ⟨s, true, false⟩, n)
    | .settled ⟨.ok (some t), s, n⟩ => (drainWithin m db fuel s n).map fun r => (t :: r.1, r.2)

theorem drain_of_drainWithin (name : String) (schema : Schema) (fuel : Nat) {s : m.State} {n : Nat}
    {r : List Tuple × Option Error × Guarded m.State × Nat}
    (h : m.drainWithin db fuel s n = some r) :
    (m.operator name schema).drain db ⟨s, true, false⟩ n = r := by
  induction fuel generalizing s n r with
  | zero => cases h
  | succ fuel ih =>
    rw [drainWithin] at h
    split at h
    · rename_i hstep
      rw [← ih h]
      exact Operator.drain_congr (guardedNext_of_again name hstep)
    · rename_i hstep
      obtain rfl := Option.some.inj h
      exact Operator.drain_of_error (guardedNext_of_settled_error name hstep)
    · rename_i hstep
      obtain rfl := Option.some.inj h
      exact Operator.drain_of_none (guardedNext_of_settled_ok name hstep)
    · rename_i hstep
      obtain ⟨rest, hrest, rfl⟩ := Option.map_eq_some_iff.1 h
      have hnext : (m.operator name schema).next db ⟨s, true, false⟩ n = _ :=
        guardedNext_of_settled_ok name hstep
      rw [Operator.drain_of_next_some hnext, ih hrest]
      rfl

end Machine

/-! ## Sources that fail -/

namespace Operator

/-- How a source fails: at a call, with an error, after which it goes on as any other source. -/
structure Failure (op : Operator) where
  error : Error
  /-- How many calls are answered before. -/
  calls : Nat
  after : Operator
  /-- Where the other source goes on from. -/
  resume : op.State → after.State

/-- A source that is still to fail, or that has failed. -/
inductive Failure.State (σ τ : Type) where
  | before (s : σ) (left : Nat)
  | after (s : τ)

variable {op : Operator} {failure : op.Failure}

namespace Failure

def start (failure : op.Failure) (db : Database) :
    State op.State failure.after.State → Except Error Unit × State op.State failure.after.State
  | .before s left => ((op.start db s).1, .before (op.start db s).2 left)
  | .after s => ((failure.after.start db s).1, .after (failure.after.start db s).2)

def next (failure : op.Failure) (db : Database) (s : State op.State failure.after.State)
    (reads : Nat) : Pull (State op.State failure.after.State) :=
  match s with
  | .before s 0 => ⟨.error failure.error, .after (failure.resume s), reads⟩
  | .before s (left + 1) =>
    let pull := op.next db s reads
    ⟨pull.answer, .before pull.state left, pull.reads⟩
  | .after s =>
    let pull := failure.after.next db s reads
    ⟨pull.answer, .after pull.state, pull.reads⟩

def close (failure : op.Failure) :
    State op.State failure.after.State → State op.State failure.after.State
  | .before s left => .before (op.close s) left
  | .after s => .after (failure.after.close s)

/-- The source that a state is of. -/
def State.toSum {σ τ : Type} : State σ τ → σ ⊕ τ
  | before s _ => .inl s
  | after s => .inr s

theorem finite_next (failure : op.Failure) : WellFounded (Pull.Later failure.next) := by
  refine Subrelation.wf (fun {u s} h => ?_) (InvImage.wf State.toSum
    (Sum.lex_wf op.finite failure.after.finite))
  obtain ⟨db, n, n', t, h⟩ := h
  match s with
  | .before s 0 => cases h
  | .before s (left + 1) =>
    obtain ⟨hanswer, rfl, -⟩ := Pull.mk.inj h
    exact .inl ⟨db, n, _, t, by rw [← hanswer]⟩
  | .after s =>
    obtain ⟨hanswer, rfl, -⟩ := Pull.mk.inj h
    exact .inr ⟨db, n, _, t, by rw [← hanswer]⟩

end Failure

/-- The source that fails so. -/
def withFailure (op : Operator) (failure : op.Failure) : Operator where
  State := Failure.State op.State failure.after.State
  name := op.name
  schema := op.schema
  initial := .before op.initial failure.calls
  start := failure.start
  next := failure.next
  close := failure.close
  finite := failure.finite_next

/-- The call has failed. -/
def Failure.Hit (failure : op.Failure) (t : (op.withFailure failure).State) : Prop :=
  ∃ u, t = Failure.State.after u

/-- The fault of a source that fails. -/
def Failure.fault (failure : op.Failure) :
    Fault failure.error op.State (op.withFailure failure).State where
  ready s t := ∃ left, t = Failure.State.before s left
  alike s t := ∃ left, t = Failure.State.before s left
  hit := failure.Hit
  fine _ := True
  apart := by
    rintro s _ ⟨left, rfl⟩ ⟨u, h⟩
    cases h

theorem faulty_withFailure (failure : op.Failure) (db : Database) :
    op.Faulty (op.withFailure failure) db db failure.fault where
  start := by
    rintro s s' _ ⟨left, rfl⟩ hstart
    refine ⟨.before s' left, ?_, left, rfl⟩
    show ((op.start db s).1, Failure.State.before (op.start db s).2 left) = _
    rw [hstart]
    rfl
  next := by
    rintro s _ n ⟨left, rfl⟩ -
    cases left with
    | zero => exact .struck (.inl ⟨_, rfl⟩)
    | succ left => exact .same ⟨left, rfl⟩ trivial

end Operator

end QueryEngine
