import Mathlib.Logic.Relation
import QueryEngine.Operator.BlockJoin
import QueryEngine.Operator.HashJoin
import QueryEngine.Operator.IndexJoin
import QueryEngine.Proofs.Operator.Fault

/-!
# Pulls come to an end

A pull of a join goes round a loop until it has something to answer. On the way the right scan is
rewound, the scan through an index is moved to another range, and another partition is loaded, so
that none of the obvious counters goes down all the time. What does go down is their combination,
with the counters that are set back behind those that set them back.

* `Loop.Ends`: a loop each of whose passes uses up a measure.
* `Machine.Settles`: the loop of a pull ends, and so do the pulls that yield.
* `pulls_end`: the joins, what they take in from a child or a partition, and index scanners.
-/

namespace QueryEngine

/-! ## Loops -/

namespace Loop

variable {σ ρ μ : Type} {pass : σ → σ ⊕ ρ} {order : WellFoundedRelation μ} {measure : σ → μ}
  {result : σ → ρ}

/-- What a loop returns within so many passes. A pass goes on from another state, or returns. -/
def within (pass : σ → σ ⊕ ρ) : Nat → σ → Option ρ
  | 0, _ => none
  | passes + 1, s =>
    match pass s with
    | .inl s' => within pass passes s'
    | .inr r => some r

/-- Every pass that goes on makes a measure smaller, and after some passes the loop returns. -/
structure Ends (pass : σ → σ ⊕ ρ) (order : WellFoundedRelation μ) (measure : σ → μ) : Prop where
  descends : ∀ {s s'}, pass s = .inl s' → order.rel (measure s') (measure s)
  returns : ∀ s, ∃ passes r, within pass passes s = some r

/-- The loop returns a given function of the state that it begins in. -/
def Computes (pass : σ → σ ⊕ ρ) (result : σ → ρ) : Prop :=
  ∀ s, ∃ passes, within pass passes s = some (result s)

theorem within_of_inl {s s' : σ} (h : pass s = .inl s') (passes : Nat) :
    within pass (passes + 1) s = within pass passes s' := by
  rw [within, h]

theorem within_of_inr {s : σ} {r : ρ} (h : pass s = .inr r) (passes : Nat) :
    within pass (passes + 1) s = some r := by
  rw [within, h]

theorem Ends.of_descends
    (descends : ∀ {s s'}, pass s = .inl s' → order.rel (measure s') (measure s)) :
    Ends pass order measure where
  descends := descends
  returns s := by
    induction s using (InvImage.wf measure order.wf).induction with
    | _ s ih =>
      cases hs : pass s with
      | inl s' =>
        obtain ⟨passes, r, hr⟩ := ih s' (descends hs)
        exact ⟨passes + 1, r, (within_of_inl hs passes).trans hr⟩
      | inr r => exact ⟨1, r, within_of_inr hs 0⟩

/-- A function that unfolds as the loop does is what the loop returns. -/
theorem eq_of_within (unfolds : ∀ s, result s = (pass s).elim result id) {passes : Nat} {s : σ}
    {r : ρ} (h : within pass passes s = some r) : r = result s := by
  induction passes generalizing s with
  | zero => cases h
  | succ passes ih =>
    rw [unfolds s]
    cases hs : pass s with
    | inl s' =>
      rw [within_of_inl hs] at h
      exact ih h
    | inr r' =>
      rw [within_of_inr hs] at h
      exact (Option.some.inj h).symm

theorem Ends.computes (h : Ends pass order measure)
    (unfolds : ∀ s, result s = (pass s).elim result id) : Computes pass result := by
  intro s
  obtain ⟨passes, r, hr⟩ := h.returns s
  exact ⟨passes, by rw [hr, eq_of_within unfolds hr]⟩

end Loop

/-! ## Taking in tuples -/

namespace Operator

variable {β : Type} (op : Operator)

/-- Takes in one tuple of a child. -/
def foldPass (f : β → Tuple → Except Error β) (db : Database) :
    β × op.State × Nat → (β × op.State × Nat) ⊕ (Except Error β × op.State × Nat)
  | (b, s, reads) =>
    match op.next db s reads with
    | ⟨.error e, s', n⟩ => .inr (.error e, s', n)
    | ⟨.ok none, s', n⟩ => .inr (.ok b, s', n)
    | ⟨.ok (some t), s', n⟩ =>
      match f b t with
      | .error e => .inr (.error e, s', n)
      | .ok b => .inl (b, s', n)

/-- Calls `next` once more. Every call has a database and a count of fetches of its own. -/
def call (world : Nat → Database × Nat) :
    Nat × op.State → (Nat × op.State) ⊕ Except Error Unit
  | (i, s) =>
    match op.next (world i).1 s (world i).2 with
    | ⟨.error e, _, _⟩ => .inr (.error e)
    | ⟨.ok none, _, _⟩ => .inr (.ok ())
    | ⟨.ok (some _), s', _⟩ => .inl (i + 1, s')

theorem ends_foldPass (f : β → Tuple → Except Error β) (db : Database) :
    Loop.Ends (op.foldPass f db) ⟨Pull.Later op.next, op.finite⟩ (·.2.1) := by
  refine .of_descends fun {p p'} h => ?_
  obtain ⟨b, s, reads⟩ := p
  simp only [foldPass] at h
  split at h
  · cases h
  · cases h
  · rename_i t s' n hn
    split at h
    · cases h
    · obtain rfl := Sum.inl.inj h
      exact ⟨db, reads, n, t, hn⟩

theorem fold_unfolds (f : β → Tuple → Except Error β) (db : Database)
    (p : β × op.State × Nat) : op.fold f db p.1 p.2.1 p.2.2 =
      (op.foldPass f db p).elim (fun p => op.fold f db p.1 p.2.1 p.2.2) id := by
  obtain ⟨b, s, reads⟩ := p
  rcases hn : op.next db s reads with ⟨e | _ | t, s', n⟩
  · simp only [foldPass, hn, fold_of_error hn, Sum.elim_inr, id]
  · simp only [foldPass, hn, fold_of_none hn, Sum.elim_inr, id]
  · cases hf : f b t with
    | error e => simp only [foldPass, hn, hf, fold_of_refused hn hf, Sum.elim_inr, id]
    | ok b' => simp only [foldPass, hn, hf, fold_of_taken hn hf, Sum.elim_inl]

theorem later_of_call {world : Nat → Database × Nat} {p p' : Nat × op.State}
    (h : op.call world p = .inl p') : Pull.Later op.next p'.2 p.2 := by
  obtain ⟨i, s⟩ := p
  simp only [call] at h
  split at h
  · cases h
  · cases h
  · rename_i t s' n hn
    obtain rfl := Sum.inl.inj h
    exact ⟨_, _, n, t, hn⟩

end Operator

namespace Spill.Reader

variable {β : Type}

/-- Takes in one tuple of a partition. -/
def foldPass (f : β → Tuple → Except Error β) : β × Reader → (β × Reader) ⊕ Except Error β
  | (b, r) =>
    match r.next with
    | .error e => .inr (.error e)
    | .ok none => .inr (.ok b)
    | .ok (some (t, r')) =>
      match f b t with
      | .error e => .inr (.error e)
      | .ok b => .inl (b, r')

theorem ends_foldPass (f : β → Tuple → Except Error β) :
    Loop.Ends (foldPass f) Nat.lt_wfRel (·.2.remaining) := by
  refine .of_descends fun {p p'} h => ?_
  obtain ⟨b, r⟩ := p
  simp only [foldPass] at h
  split at h
  · cases h
  · cases h
  · rename_i t r' hn
    split at h
    · cases h
    · obtain rfl := Sum.inl.inj h
      have hless := remaining_next hn
      show r'.remaining < r.remaining
      omega

theorem fold_unfolds (f : β → Tuple → Except Error β) (p : β × Reader) :
    fold f p.1 p.2 = (foldPass f p).elim (fun p => fold f p.1 p.2) id := by
  obtain ⟨b, r⟩ := p
  rw [fold]
  split <;> rename_i hn
  · simp only [foldPass, hn, Sum.elim_inr, id]
  · simp only [foldPass, hn, Sum.elim_inr, id]
  · cases hf : f b _ with
    | error e => simp only [foldPass, hn, hf, Sum.elim_inr, id, Except.bind]
    | ok b' => simp only [foldPass, hn, hf, Sum.elim_inl, Except.bind]

end Spill.Reader

/-! ## Index scanners -/

namespace IndexScanner

/-- Looks up one key, unless an id of the last one is still to be given. -/
def pass (s : IndexScanner) : IndexScanner ⊕ (Option (RowId × Value) × IndexScanner) :=
  if s.done then .inr (none, s)
  else
    match s.cursor with
    | some (k, id :: ids) => .inr (some (id, k.toValue), { s with cursor := some (k, ids) })
    | _ =>
      match s.entries.firstIn? s.ahead with
      | none => .inl { s with interval := s.ahead, cursor := none, done := true }
      | some (k, ids) => .inl { s with interval := s.ahead, cursor := some (k, ids) }

/-- What a pass uses up: the look-up that finds nothing, and keys. -/
def lookUpsLeft (s : IndexScanner) : Nat × Nat :=
  (if s.done then 0 else 1, s.entries.countIn s.ahead)

theorem ends_pass : Loop.Ends pass (Prod.lex Nat.lt_wfRel Nat.lt_wfRel) lookUpsLeft := by
  refine .of_descends fun {s s'} h => ?_
  unfold pass at h
  split at h
  · cases h
  · rename_i hdone
    split at h
    · cases h
    · split at h <;> obtain rfl := Sum.inl.inj h
      · simp only [lookUpsLeft, hdone]
        exact .left _ _ Nat.zero_lt_one
      · rename_i k ids hk
        simp only [lookUpsLeft, hdone]
        exact .right _ (KeyMap.countIn_after_lt hk)

/-- Without keys there is one look-up, which finds that there are none. -/
example : Loop.within pass 1 ⟨.empty, .all, none, false⟩ = none ∧
    (Loop.within pass 2 ⟨.empty, .all, none, false⟩).map (·.1) = some none :=
  ⟨rfl, rfl⟩

theorem pass_of_idle {s : IndexScanner} (hdone : ¬s.done = true)
    (hidle : ∀ k id ids, s.cursor = some (k, id :: ids) → False) :
    s.pass =
      match s.entries.firstIn? s.ahead with
      | none => .inl { s with interval := s.ahead, cursor := none, done := true }
      | some (k, ids) => .inl { s with interval := s.ahead, cursor := some (k, ids) } := by
  rw [pass, if_neg hdone]
  split
  · exact (hidle _ _ _ ‹_›).elim
  · rfl

theorem next_unfolds (s : IndexScanner) : s.next = s.pass.elim next id := by
  fun_induction next s with
  | case1 s hdone => rw [pass, if_pos hdone, Sum.elim_inr, id]
  | case2 s hdone k id ids hcursor =>
    rw [pass, if_neg hdone, hcursor]
    rfl
  | case3 s hdone hfirst hidle =>
    rw [pass_of_idle hdone hidle, hfirst, Sum.elim_inl, next, if_pos rfl]
  | case4 s hdone k ids hfirst hlt hidle ih =>
    rw [pass_of_idle hdone hidle, hfirst, Sum.elim_inl]

/-- Asks for one more entry. -/
def call (s : IndexScanner) : IndexScanner ⊕ Unit :=
  match s.next with
  | (some _, s') => .inl s'
  | (none, _) => .inr ()

theorem ends_call : Loop.Ends call (Prod.lex Nat.lt_wfRel Nat.lt_wfRel) rank := by
  refine .of_descends fun {s s'} h => ?_
  unfold call at h
  split at h
  · rename_i entry s'' hn
    obtain rfl := Sum.inl.inj h
    have hless := s.rank_next_lt (show s.next.1 = some entry by rw [hn])
    rwa [hn] at hless
  · cases h

end IndexScanner

/-! ## Machines -/

namespace Machine

variable {μ : Type} {m : Machine} {order : WellFoundedRelation μ} {measure : m.State → μ}

/-- Takes one step of a pull. -/
def pass (m : Machine) (db : Database) : m.State × Nat → (m.State × Nat) ⊕ Pull m.State
  | (s, reads) =>
    match m.step db s reads with
    | .again s' n => .inl (s', n)
    | .settled pull => .inr pull

theorem run_unfolds (m : Machine) (db : Database) (p : m.State × Nat) :
    m.run db p.1 p.2 = (m.pass db p).elim (fun p => m.run db p.1 p.2) id := by
  obtain ⟨s, reads⟩ := p
  simp only [pass]
  cases hs : m.step db s reads with
  | again s' n => exact run_of_again hs
  | settled pull => exact run_of_settled hs

/-- Pulling a machine comes to an end, from every state and whatever its children answer. -/
structure Settles (m : Machine) (order : WellFoundedRelation μ) (measure : m.State → μ) :
    Prop where
  /-- A pull goes round finitely often, and each time uses something up. -/
  pulls : ∀ db, Loop.Ends (m.pass db) order fun p => measure p.1
  computes : ∀ db, Loop.Computes (m.pass db) fun p => m.run db p.1 p.2
  /-- So does one call after the other, until there is no tuple. -/
  calls : ∀ name schema world, Loop.Ends ((m.operator name schema).call world)
    ⟨Relation.TransGen order.rel, order.wf.transGen⟩ fun p => measure p.2.body

theorem Settles.of_rank
    (h : ∀ {db s n s'}, (m.step db s n).continuation = some s' →
      order.rel (measure s') (measure s)) : m.Settles order measure := by
  have hpulls : ∀ db, Loop.Ends (m.pass db) order fun p => measure p.1 := by
    refine fun db => .of_descends fun {p p'} hp => ?_
    obtain ⟨s, reads⟩ := p
    simp only [pass] at hp
    split at hp
    · rename_i s' n hs
      obtain rfl := Sum.inl.inj hp
      exact h (by rw [hs]; rfl)
    · cases hp
  refine ⟨hpulls, fun db => (hpulls db).computes (m.run_unfolds db), fun name schema world => ?_⟩
  refine .of_descends fun {p p'} hp => ?_
  have hlater := transGen_of_guardedNext ((m.operator name schema).later_of_call hp)
  exact hlater.lift measure fun _ _ ⟨_, _, hs⟩ => h hs

end Machine

/-! ## Joins -/

/-- **Pulls come to an end.** The loop in a pull of a join uses up a measure with every pass, and
pulling until there is no tuple uses it up with every pull. So do the loops inside of one step: the
taking in of a child, the loading of a partition, and the look-up of keys in an index, which can
also be asked for entries only so often. -/
theorem pulls_end :
    (∀ (join : BlockJoin) (left : Operator),
      (join.machine left).Settles (BlockJoin.rankOrder left) BlockJoin.State.rank) ∧
    (∀ (join : IndexJoin) (left : Operator),
      (join.machine left).Settles (IndexJoin.rankOrder left) IndexJoin.State.rank) ∧
    (∀ (join : HashJoin) (left right : Operator),
      (join.machine left right).Settles HashJoin.rankOrder (·.phase.rank)) ∧
    (∀ (op : Operator) (β : Type) (f : β → Tuple → Except Error β) (db : Database),
      Loop.Ends (op.foldPass f db) ⟨Pull.Later op.next, op.finite⟩ (·.2.1) ∧
      Loop.Computes (op.foldPass f db) fun p => op.fold f db p.1 p.2.1 p.2.2) ∧
    (∀ (β : Type) (f : β → Tuple → Except Error β),
      Loop.Ends (Spill.Reader.foldPass f) Nat.lt_wfRel (·.2.remaining) ∧
      Loop.Computes (Spill.Reader.foldPass f) fun p => Spill.Reader.fold f p.1 p.2) ∧
    Loop.Ends IndexScanner.pass (Prod.lex Nat.lt_wfRel Nat.lt_wfRel) IndexScanner.lookUpsLeft ∧
    Loop.Computes IndexScanner.pass IndexScanner.next ∧
    Loop.Ends IndexScanner.call (Prod.lex Nat.lt_wfRel Nat.lt_wfRel) IndexScanner.rank := by
  refine ⟨fun _ _ => .of_rank BlockJoin.rank_step, fun _ _ => .of_rank IndexJoin.rank_step,
    fun _ _ _ => .of_rank HashJoin.rank_step, fun op β f db => ?_, fun β f => ?_,
    IndexScanner.ends_pass, IndexScanner.ends_pass.computes IndexScanner.next_unfolds,
    IndexScanner.ends_call⟩
  · have hends := op.ends_foldPass f db
    exact ⟨hends, hends.computes (op.fold_unfolds f db)⟩
  · have hends := Spill.Reader.ends_foldPass f
    exact ⟨hends, hends.computes (Spill.Reader.fold_unfolds f)⟩

end QueryEngine
