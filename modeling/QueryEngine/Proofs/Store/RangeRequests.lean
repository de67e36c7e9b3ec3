import QueryEngine.Proofs.Store.RangeScan

/-!
# What a scanner asks its map for

A search tree cannot be asked for every interval: it stops the program when the lower bound is past
the upper one, and when both stand at one key and both exclude it. A scan checks its bounds once, as
it is opened. From then on the scanner puts its lower bound at the keys that it reads, and there the
upper bound still leaves room.

* `Interval.Askable`: what a tree can be asked for; `KeyMap.range?` is a tree that stops otherwise.
* `IndexScanner.next?`: the next row id, if every look-up on the way to it can be made.
* `IndexScanner.Steady`: what all calls on a scanner keep up, from its opening on.
* `IndexScanner.next?_eq`: no look-up stops the program.
-/

namespace QueryEngine

/-- The key that a bound stands at. -/
def Bound.key? : Bound → Option Key
  | unbounded => none
  | included k | excluded k => some k

/-! ## Intervals that can be asked for -/

namespace Interval

variable {i : Interval} {low : Bound} {k : Key}

/-- The lower bound is not past the upper one, nor do both exclude the key at which both stand. -/
def Askable (i : Interval) : Prop :=
  ∀ l ∈ i.low.key?, ∀ h ∈ i.high.key?,
    ¬h < l ∧ ¬(l = h ∧ i.low = .excluded l ∧ i.high = .excluded h)

instance (i : Interval) : Decidable i.Askable :=
  inferInstanceAs (Decidable (∀ l ∈ i.low.key?, ∀ h ∈ i.high.key?, _))

theorem askable_unbounded (low : Bound) : Askable ⟨low, .unbounded⟩ := fun _ _ _ h => nomatch h

theorem askable_included (h : ∀ l ∈ low.key?, ¬k < l) : Askable ⟨low, .included k⟩ := by
  rintro l hl _ ⟨⟩
  exact ⟨h l hl, fun hboth => nomatch hboth.2.2⟩

theorem askable_excluded (h : ∀ l ∈ low.key?, l < k) : Askable ⟨low, .excluded k⟩ := by
  rintro l hl _ ⟨⟩
  have hlt := h l hl
  exact ⟨Key.lt_asymm hlt, fun hboth => Key.lt_irrefl k (hboth.1 ▸ hlt)⟩

/-- The check of the bounds rules out more than has to be. -/
theorem askable_of_crossed_eq_false (h : crossed i.low i.high = false) : i.Askable := by
  obtain ⟨low, high⟩ := i
  cases high with
  | unbounded => exact askable_unbounded low
  | included u =>
    refine askable_included fun l hl => ?_
    cases low with
    | unbounded => cases hl
    | included =>
      obtain rfl := Option.some.inj hl
      exact of_decide_eq_false h
    | excluded =>
      obtain rfl := Option.some.inj hl
      exact Key.lt_asymm (by simpa [crossed] using h)
  | excluded u =>
    refine askable_excluded fun l hl => ?_
    cases low with
    | unbounded => cases hl
    | included | excluded =>
      obtain rfl := Option.some.inj hl
      simpa [crossed] using h

/-- Past a key of the interval the upper bound has not come, and if it is there it includes it. -/
theorem askable_after (hk : i.contains k = true) : (i.after k).Askable := by
  have habove : i.high.above k = true := (Bool.and_eq_true_iff.1 hk).2
  have hafter : ∀ {p : Key → Prop}, p k → ∀ l ∈ (Bound.excluded k).key?, p l :=
    fun hp l hl => Option.some.inj hl ▸ hp
  obtain ⟨low, high⟩ := i
  cases high with
  | unbounded => exact askable_unbounded _
  | included u => exact askable_included (hafter (by simpa [Bound.above] using habove))
  | excluded u => exact askable_excluded (hafter (of_decide_eq_true habove))

end Interval

/-- The first entry of an interval, from a tree that stops the program if it cannot be asked. -/
def KeyMap.range? {α : Type} (m : KeyMap α) (i : Interval) : Option (Option (Key × α)) :=
  if i.Askable then some (m.firstIn? i) else none

theorem KeyMap.firstIn?_of_range? {α : Type} {m : KeyMap α} {i : Interval} {e? : Option (Key × α)}
    (h : m.range? i = some e?) : m.firstIn? i = e? := by
  unfold range? at h
  split at h
  · exact Option.some.inj h
  · cases h

/-! ## Scanners -/

namespace IndexScanner

/-- The next row id with its value, as `next` finds it, from a tree that may stop the program. -/
def next? (s : IndexScanner) : Option (Option (RowId × Value) × IndexScanner) :=
  if s.done then some (none, s)
  else
    match s.cursor with
    | some (k, id :: ids) => some (some (id, k.toValue), { s with cursor := some (k, ids) })
    | _ =>
      match h : s.entries.range? s.ahead with
      | none => none
      | some none => some (none, { s with interval := s.ahead, cursor := none, done := true })
      | some (some (k, ids)) =>
        have := KeyMap.countIn_after_lt (KeyMap.firstIn?_of_range? h)
        next? { s with interval := s.ahead, cursor := some (k, ids) }
termination_by s.entries.countIn s.ahead

/-- The states that a scanner comes to as it is asked for entries and closed. -/
inductive Reaches : IndexScanner → IndexScanner → Prop
  | refl (s : IndexScanner) : s.Reaches s
  | next {s u : IndexScanner} (h : s.Reaches u) : s.Reaches u.next.2
  | close {s u : IndexScanner} (h : s.Reaches u) : s.Reaches u.close

/-- Unless the scan is over, what is ahead can be asked for. -/
def Steady (s : IndexScanner) : Prop := s.done = false → s.ahead.Askable

theorem steady_of_done {s : IndexScanner} (h : s.done = true) : s.Steady := by
  intro hdone
  rw [h] at hdone
  cases hdone

theorem steady_close (s : IndexScanner) : s.close.Steady := steady_of_done rfl

/-- Once a key is looked up, what comes after it can be asked for. -/
theorem steady_of_firstIn? {s : IndexScanner} {k : Key} {ids : List RowId}
    (h : s.entries.firstIn? s.ahead = some (k, ids)) :
    Steady { s with interval := s.ahead, cursor := some (k, ids) } := fun _ =>
  Interval.askable_after (by simpa using List.find?_some h)

/-- A key that can be looked up is looked up. -/
theorem next?_of_idle {s : IndexScanner} (hs : s.Steady) (hdone : ¬s.done = true)
    (h : ∀ k id ids, s.cursor = some (k, id :: ids) → False) :
    s.next? =
      match s.entries.firstIn? s.ahead with
      | none => some (none, { s with interval := s.ahead, cursor := none, done := true })
      | some (k, ids) => next? { s with interval := s.ahead, cursor := some (k, ids) } := by
  have hrange : s.entries.range? s.ahead = some (s.entries.firstIn? s.ahead) :=
    if_pos (hs (Bool.eq_false_iff.2 hdone))
  rw [next?, if_neg hdone]
  split
  · rename_i hcursor
    exact (h _ _ _ hcursor).elim
  · split <;> rename_i hfirst <;> rw [hrange] at hfirst
    · cases hfirst
    · rw [Option.some.inj hfirst]
    · rw [Option.some.inj hfirst]

/-- Nothing that a steady scanner looks up stops the program, and it stays steady: a key that is
found lies where the upper bound leaves room. -/
theorem Steady.next {s : IndexScanner} (hs : s.Steady) :
    s.next? = some s.next ∧ s.next.2.Steady := by
  fun_induction IndexScanner.next s with
  | case1 s hdone => exact ⟨by rw [next?, if_pos hdone], steady_of_done hdone⟩
  | case2 s hdone k id ids hcursor =>
    refine ⟨by rw [next?, if_neg hdone, hcursor], fun _ => ?_⟩
    have hahead := hs (Bool.eq_false_iff.2 hdone)
    rwa [ahead, hcursor] at hahead
  | case3 s hdone hfirst hidle =>
    exact ⟨by rw [next?_of_idle hs hdone hidle, hfirst], steady_of_done rfl⟩
  | case4 s hdone k ids hfirst hlt hidle ih =>
    obtain ⟨hnext, hsteady⟩ := ih (steady_of_firstIn? hfirst)
    exact ⟨by rw [next?_of_idle hs hdone hidle, hfirst]; exact hnext, hsteady⟩

theorem Reaches.steady {s u : IndexScanner} (h : s.Reaches u) (hs : s.Steady) : u.Steady := by
  induction h with
  | refl => exact hs
  | next _ ih => exact ih.next.2
  | close => exact steady_close _

end IndexScanner

/-- The bounds of a scan are checked as it is opened. -/
theorem Index.steady_of_scan {index : Index} {range : KeyRange} {scanner : IndexScanner}
    (h : index.scan range = .ok scanner) : scanner.Steady := by
  obtain ⟨i?, hrange, hscanner⟩ := bind_eq_ok_iff.1 h
  cases i? with
  | none =>
    obtain rfl := Except.ok.inj hscanner
    exact IndexScanner.steady_of_done rfl
  | some i =>
    obtain rfl := Except.ok.inj hscanner
    obtain ⟨low, -, hrest⟩ := bind_eq_ok_iff.1 hrange
    obtain ⟨high, -, hi⟩ := bind_eq_ok_iff.1 hrest
    rw [pure_eq_ok, Except.ok.injEq] at hi
    split at hi
    · cases hi
    · rename_i hcrossed
      obtain rfl := Option.some.inj hi
      exact fun _ => Interval.askable_of_crossed_eq_false (Bool.eq_false_iff.2 hcrossed)

/-- **No look-up of a scan stops the program**, whichever range it is over, on any index, and
however often it is asked for an entry or closed. -/
theorem Store.next?_eq {s : Store} {table column : String} {range : KeyRange}
    {scanner u : IndexScanner} (h : s.indexScan table column range = .ok scanner)
    (hu : scanner.Reaches u) : u.next? = some u.next := by
  obtain ⟨t, index, -, -, hscan⟩ := Store.exists_of_indexScan h
  exact (hu.steady (Index.steady_of_scan hscan)).next.1

namespace OpenStore

/-- From zero up to one, both included: the last look-up is for keys past one and up to one. -/
theorem next?_eq_zeros : ∃ scanner,
    zeros.store.indexScan "t" "x"
      (.between (.real (.zero true)) true (.real (.ofInt 1)) true) = .ok scanner ∧
    scanner.next.2.next.2.next.2.next? = some scanner.next.2.next.2.next.2.next := by
  obtain ⟨scanner, hopened⟩ : ∃ scanner, zeros.store.indexScan "t" "x"
      (.between (.real (.zero true)) true (.real (.ofInt 1)) true) = .ok scanner := ⟨_, by rfl⟩
  exact ⟨scanner, hopened, Store.next?_eq hopened (.next (.next (.next (.refl scanner))))⟩

end OpenStore

end QueryEngine
