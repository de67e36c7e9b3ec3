import QueryEngine.Key.Map

/-!
# Reading maps from keys

* `KeyMap.get?_update`: an update changes the item under its key and no other.
* `KeyMap.get?_foldl_update`: so does a run of updates, each with what came under its key.
* `KeyMap.get?_eq_some_iff`: what is found under a key is what the entries list there.
* `KeyMap.ext_of_get?`: and a map is no more than what is found in it.
* `KeyMap.filter_of_firstIn?`: the entries of an interval are its first one and those after it.
* `Interval.contains_of_crossed`: crossed bounds leave no room.
-/

namespace QueryEngine

/-! ## Intervals -/

theorem Bound.below_of_lt {b : Bound} {k l : Key} (hk : b.below k = true) (hl : k < l) :
    b.below l = true :=
  below_of_excluded hk (decide_eq_true hl)

namespace Interval

variable {i : Interval} {k l : Key}

/-- Past a key of an interval there is only its upper end. -/
theorem contains_after_of_lt (hk : i.contains k = true) (hl : k < l) :
    (i.after k).contains l = i.contains l := by
  have hlow : i.low.below l = true := Bound.below_of_lt (Bool.and_eq_true_iff.1 hk).1 hl
  have hexcluded : (Bound.excluded k).below l = true := decide_eq_true hl
  rw [contains, contains, after, hlow, hexcluded]

theorem contains_of_crossed (h : crossed i.low i.high = true) : i.contains k = false := by
  apply Bool.eq_false_iff.2
  intro hk
  obtain ⟨low, high⟩ := i
  have hboth := Bool.and_eq_true_iff.1 hk
  cases low <;> cases high <;>
    simp only [crossed, Bound.below, Bound.above, reduceCtorEq, Bool.not_eq_true',
      decide_eq_true_eq, decide_eq_false_iff_not] at h hboth
  · rename_i l u
    rcases Key.lt_trichotomy l k with hlt | rfl | hlt
    · exact hboth.2 (Key.lt_trans h hlt)
    · exact hboth.2 h
    · exact hboth.1 hlt
  · rename_i l u
    rcases Key.lt_trichotomy l k with hlt | rfl | hlt
    · exact h (Key.lt_trans hlt hboth.2)
    · exact h hboth.2
    · exact hboth.1 hlt
  · rename_i l u
    rcases Key.lt_trichotomy k u with hlt | rfl | hlt
    · exact h (Key.lt_trans hboth.1 hlt)
    · exact h hboth.1
    · exact hboth.2 hlt
  · exact h (Key.lt_trans hboth.1 hboth.2)

end Interval

/-! ## Maps -/

namespace KeyMap

variable {α : Type} {entries : List (Key × α)} {m : KeyMap α} {k l : Key} {a : α}

@[simp] theorem get?_empty (k : Key) : (empty : KeyMap α).get? k = none := rfl

theorem lookup_eq_none_of_lt (h : ∀ e ∈ entries, k < e.1) : entries.lookup k = none := by
  apply List.lookup_eq_none_iff.2
  intro e he
  have hne : k ≠ e.1 := fun hk => Key.lt_irrefl k (hk ▸ h e he)
  simpa using hne

theorem lookup_cons_eq {κ : Type} [DecidableEq κ] (k l : κ) (a : α) (entries : List (κ × α)) :
    ((k, a) :: entries).lookup l = if l = k then some a else entries.lookup l := by
  by_cases h : l = k
  · rw [List.lookup_cons, beq_iff_eq.2 h, if_pos h]
  · rw [List.lookup_cons, beq_eq_false_iff_ne.2 h, if_neg h]

theorem lookup_updateEntries (f : Option α → α) (h : entries.Pairwise (·.1 < ·.1)) (k l : Key) :
    (updateEntries k f entries).lookup l =
      if l = k then some (f (entries.lookup k)) else entries.lookup l := by
  induction entries with
  | nil => exact lookup_cons_eq k l _ []
  | cons head rest ih =>
    obtain ⟨k', a⟩ := head
    obtain ⟨hhead, hrest⟩ := List.pairwise_cons.1 h
    rw [updateEntries]
    split
    · rename_i hlt
      have hnone : List.lookup k ((k', a) :: rest) = none := by
        apply lookup_eq_none_of_lt
        intro e he
        rcases List.mem_cons.1 he with rfl | he
        · exact hlt
        · exact Key.lt_trans hlt (hhead e he)
      rw [hnone, lookup_cons_eq]
    · rename_i heq
      obtain rfl : k = k' := Std.LawfulEqOrd.eq_of_compare heq
      simp only [lookup_cons_eq, if_true]
      by_cases hl : l = k
      · rw [if_pos hl, if_pos hl]
      · rw [if_neg hl, if_neg hl, if_neg hl]
    · rename_i hgt
      have hne : k ≠ k' := by
        intro hk
        rw [hk, Std.ReflOrd.compare_self] at hgt
        cases hgt
      rw [lookup_cons_eq, lookup_cons_eq, lookup_cons_eq, ih hrest, if_neg hne]
      by_cases hl : l = k
      · rw [if_pos hl, if_pos hl, if_neg (hl ▸ hne)]
      · rw [if_neg hl, if_neg hl]

/-- An update changes the item under its key and no other. -/
theorem get?_update (m : KeyMap α) (k l : Key) (f : Option α → α) :
    (m.update k f).get? l = if l = k then some (f (m.get? k)) else m.get? l :=
  lookup_updateEntries f m.sorted k l

theorem lookup_eq_some_iff (h : entries.Pairwise (·.1 < ·.1)) :
    entries.lookup k = some a ↔ (k, a) ∈ entries := by
  induction entries with
  | nil => simp
  | cons head rest ih =>
    obtain ⟨k', b⟩ := head
    obtain ⟨hhead, hrest⟩ := List.pairwise_cons.1 h
    rw [lookup_cons_eq, List.mem_cons, ← ih hrest]
    by_cases hk : k = k'
    · subst hk
      have hnone : rest.lookup k = none := lookup_eq_none_of_lt hhead
      simp [hnone, eq_comm]
    · simp [hk]

/-- What is found under a key is what the entries list there. -/
theorem get?_eq_some_iff : m.get? k = some a ↔ (k, a) ∈ m.entries :=
  lookup_eq_some_iff m.sorted

/-- Items are made of what comes under their keys, whatever comes in between under other keys. -/
theorem get?_foldl_update {β : Type} (key : β → Key) (f : α → β → α) (initial : α) (list : List β)
    (m : KeyMap α) (k : Key) :
    (list.foldl (fun m b => m.update (key b) fun a => f (a.getD initial) b) m).get? k =
      if list.filter (key · = k) = [] then m.get? k
      else some ((list.filter (key · = k)).foldl f ((m.get? k).getD initial)) := by
  induction list generalizing m with
  | nil => rfl
  | cons b list ih =>
    rw [List.foldl_cons, ih, get?_update]
    by_cases hk : k = key b
    · have hmem : (b :: list).filter (key · = k) = b :: list.filter (key · = k) :=
        List.filter_cons_of_pos (decide_eq_true hk.symm)
      rw [hmem, if_neg (List.cons_ne_nil _ _), if_pos hk, List.foldl_cons, ← hk]
      split
      · rename_i hnil
        rw [hnil, List.foldl_nil]
      · rfl
    · have hmem : (b :: list).filter (key · = k) = list.filter (key · = k) :=
        List.filter_cons_of_neg (by simpa using Ne.symm hk)
      rw [hmem, if_neg hk]

/-- Two maps with the same items under the same keys are one. -/
theorem ext_of_get? {m m' : KeyMap α} (h : ∀ k, m.get? k = m'.get? k) : m = m' := by
  have hne : ∀ {e f : Key × α}, e.1 < f.1 → e ≠ f :=
    fun hlt heq => Key.lt_irrefl _ (heq ▸ hlt)
  have hperm : m.entries.Perm m'.entries :=
    (List.perm_ext_iff_of_nodup (m.sorted.imp hne) (m'.sorted.imp hne)).2 fun e => by
      rw [← get?_eq_some_iff (m := m), ← get?_eq_some_iff (m := m'), h]
  have heq : m.entries = m'.entries :=
    hperm.eq_of_pairwise (fun e f _ _ hef hfe => (Key.lt_asymm hef hfe).elim)
      m.sorted m'.sorted
  cases m
  cases m'
  cases heq
  rfl

variable {i : Interval}

theorem filter_of_firstIn?_none (h : m.firstIn? i = none) :
    m.entries.filter (i.contains ·.1) = [] :=
  List.filter_eq_nil_iff.2 fun e he => List.find?_eq_none.1 h e he

theorem filter_of_find? (h : entries.Pairwise (·.1 < ·.1))
    (hk : entries.find? (i.contains ·.1) = some (k, a)) :
    entries.filter (i.contains ·.1) = (k, a) :: entries.filter ((i.after k).contains ·.1) := by
  induction entries with
  | nil => simp at hk
  | cons head rest ih =>
    obtain ⟨hhead, hrest⟩ := List.pairwise_cons.1 h
    rw [List.find?_cons] at hk
    cases hi : i.contains head.1 with
    | true =>
      simp only [hi, Option.some.injEq] at hk
      subst hk
      have hafter : ∀ e ∈ rest, (i.after k).contains e.1 = i.contains e.1 :=
        fun e he => Interval.contains_after_of_lt hi (hhead e he)
      simp only [List.filter_cons, hi, Interval.not_contains_after_self, List.filter_congr hafter,
        if_true, Bool.false_eq_true, if_false]
    | false =>
      simp only [hi] at hk
      have hlt : head.1 < k := hhead (k, a) (List.mem_of_find?_eq_some hk)
      have hnot : (i.after k).contains head.1 = false := by
        have : ¬ k < head.1 := Key.lt_asymm hlt
        simp [Interval.contains, Interval.after, Bound.below, this]
      simp only [List.filter_cons, hi, hnot, Bool.false_eq_true, if_false]
      exact ih hrest hk

/-- The entries of an interval are its first one and those after it. -/
theorem filter_of_firstIn? (h : m.firstIn? i = some (k, a)) :
    m.entries.filter (i.contains ·.1) = (k, a) :: m.entries.filter ((i.after k).contains ·.1) :=
  filter_of_find? m.sorted h

end KeyMap

end QueryEngine
