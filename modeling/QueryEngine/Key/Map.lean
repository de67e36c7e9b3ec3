import QueryEngine.Key.Interval

/-!
# Maps from keys

A map lists its keys in ascending order, each with one item, so two maps with the same items under
the same keys are the same map, and listing the keys of an interval is reading part of the list.

* `KeyMap.get?`, `KeyMap.update`: the item under a key, and changing it or putting a first one.
* `KeyMap.firstIn?`: the least key of an interval with its item.
* `KeyMap.countIn`: how many keys lie in an interval; it drops when the interval moves past one.
-/

namespace QueryEngine

/-- Items under keys, each key once, in ascending order. -/
structure KeyMap (α : Type) where
  entries : List (Key × α)
  sorted : entries.Pairwise (·.1 < ·.1)

namespace KeyMap

variable {α : Type}

def empty : KeyMap α := ⟨[], .nil⟩

instance : Inhabited (KeyMap α) := ⟨empty⟩

def size (m : KeyMap α) : Nat := m.entries.length

def isEmpty (m : KeyMap α) : Bool := m.entries.isEmpty

/-- The item under a key. -/
def get? (m : KeyMap α) (k : Key) : Option α := m.entries.lookup k

/-- The entries with the item under `k` replaced, or a new entry put where it belongs. -/
def updateEntries (k : Key) (f : Option α → α) : List (Key × α) → List (Key × α)
  | [] => [(k, f none)]
  | (l, a) :: rest =>
    match compare k l with
    | .lt => (k, f none) :: (l, a) :: rest
    | .eq => (l, f (some a)) :: rest
    | .gt => (l, a) :: updateEntries k f rest

theorem mem_updateEntries {k : Key} {f : Option α → α} {entries : List (Key × α)} {e : Key × α}
    (h : e ∈ updateEntries k f entries) : e.1 = k ∨ ∃ e' ∈ entries, e'.1 = e.1 := by
  induction entries with
  | nil =>
    simp only [updateEntries, List.mem_singleton] at h
    exact .inl (h ▸ rfl)
  | cons head rest ih =>
    obtain ⟨l, a⟩ := head
    rw [updateEntries] at h
    split at h
    · rcases List.mem_cons.1 h with rfl | h
      · exact .inl rfl
      · exact .inr ⟨e, h, rfl⟩
    · rcases List.mem_cons.1 h with rfl | h
      · exact .inr ⟨(l, a), List.mem_cons_self, rfl⟩
      · exact .inr ⟨e, List.mem_cons_of_mem _ h, rfl⟩
    · rcases List.mem_cons.1 h with rfl | h
      · exact .inr ⟨_, List.mem_cons_self, rfl⟩
      · rcases ih h with hk | ⟨e', he', hk⟩
        · exact .inl hk
        · exact .inr ⟨e', List.mem_cons_of_mem _ he', hk⟩

theorem sorted_updateEntries (k : Key) (f : Option α → α) {entries : List (Key × α)}
    (h : entries.Pairwise (·.1 < ·.1)) : (updateEntries k f entries).Pairwise (·.1 < ·.1) := by
  induction entries with
  | nil => exact List.pairwise_singleton _ _
  | cons head rest ih =>
    obtain ⟨l, a⟩ := head
    obtain ⟨hl, hrest⟩ := List.pairwise_cons.1 h
    rw [updateEntries]
    split
    · rename_i hlt
      refine List.pairwise_cons.2 ⟨fun e he => ?_, h⟩
      rcases List.mem_cons.1 he with rfl | he
      · exact hlt
      · exact Key.lt_trans hlt (hl e he)
    · exact List.pairwise_cons.2 ⟨hl, hrest⟩
    · rename_i hgt
      refine List.pairwise_cons.2 ⟨fun e he => ?_, ih hrest⟩
      rcases mem_updateEntries he with hk | ⟨e', he', hk⟩
      · exact hk ▸ Key.lt_iff_compare.2 (Std.OrientedCmp.lt_of_gt hgt)
      · exact hk ▸ hl e' he'

/-- The map with the item under `k` made from the one that was there, if any. -/
def update (m : KeyMap α) (k : Key) (f : Option α → α) : KeyMap α :=
  ⟨updateEntries k f m.entries, sorted_updateEntries k f m.sorted⟩

/-- The least key of an interval, with its item. -/
def firstIn? (m : KeyMap α) (i : Interval) : Option (Key × α) :=
  m.entries.find? (i.contains ·.1)

/-- The number of keys in an interval. -/
def countIn (m : KeyMap α) (i : Interval) : Nat := m.entries.countP (i.contains ·.1)

theorem countP_lt_countP {β : Type} {p q : β → Bool} {l : List β} (hpq : ∀ x ∈ l, p x → q x)
    {a : β} (ha : a ∈ l) (hq : q a) (hp : p a = false) : l.countP p < l.countP q := by
  induction l with
  | nil => simp at ha
  | cons b l ih =>
    have hle : l.countP p ≤ l.countP q :=
      List.countP_mono_left fun x hx => hpq x (List.mem_cons_of_mem _ hx)
    have hb := hpq b List.mem_cons_self
    rcases List.mem_cons.1 ha with rfl | ha
    · simp only [List.countP_cons, hq, hp]
      simp
      omega
    · have := ih (fun x hx => hpq x (List.mem_cons_of_mem _ hx)) ha
      have hstep : (if p b = true then 1 else 0) ≤ (if q b = true then 1 else 0) := by
        by_cases hpb : p b = true
        · simp only [if_pos hpb, if_pos (hb hpb), Nat.le_refl]
        · rw [if_neg hpb]
          exact Nat.zero_le _
      simp only [List.countP_cons]
      omega

theorem countIn_after_lt {m : KeyMap α} {i : Interval} {k : Key} {a : α}
    (h : m.firstIn? i = some (k, a)) : m.countIn (i.after k) < m.countIn i := by
  have hk : i.contains k := by simpa using List.find?_some h
  exact countP_lt_countP (fun _ _ hl => Interval.contains_of_contains_after hk hl)
    (List.mem_of_find?_eq_some h) hk (Interval.not_contains_after_self i k)

end KeyMap

end QueryEngine
