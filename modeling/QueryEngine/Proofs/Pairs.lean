import Mathlib.Data.List.Perm.Basic

/-!
# Pairs in different orders

Joins go through the pairs of two lists in orders of their own. Pairs chosen by what they are, and
not by when they come up, are the same in all of them.

* `pairs`: the chosen pairs, with the left items in the outer loop.
* `pairs_perm_swap`: the other loop outside gives the same pairs.
* `flatMap_parts_perm`: parting a list gives the same items, part after part.
-/

namespace QueryEngine

variable {α β γ : Type} {p : α → β → Bool}

/-- The pairs that are chosen, by left items first. -/
def pairs (p : α → β → Bool) (as : List α) (bs : List β) : List (α × β) :=
  as.flatMap fun a => (bs.filter (p a)).map (a, ·)

theorem mem_pairs {as : List α} {bs : List β} {x : α × β} :
    x ∈ pairs p as bs ↔ x.1 ∈ as ∧ x.2 ∈ bs ∧ p x.1 x.2 = true := by
  simp only [pairs, List.mem_flatMap, List.mem_map, List.mem_filter]
  constructor
  · rintro ⟨a, ha, b, ⟨hb, hp⟩, rfl⟩
    exact ⟨ha, hb, hp⟩
  · rintro ⟨ha, hb, hp⟩
    exact ⟨x.1, ha, x.2, ⟨hb, hp⟩, rfl⟩

theorem pairs_append (p : α → β → Bool) (as as' : List α) (bs : List β) :
    pairs p (as ++ as') bs = pairs p as bs ++ pairs p as' bs := List.flatMap_append

theorem flatMap_pairs (p : α → β → Bool) (blocks : List (List α)) (bs : List β) :
    (blocks.flatMap fun as => pairs p as bs) = pairs p blocks.flatten bs := by
  induction blocks with
  | nil => rfl
  | cons as blocks ih => rw [List.flatMap_cons, ih, List.flatten_cons, pairs_append]

theorem pairs_true (as : List α) (bs : List β) : pairs (fun _ _ => true) as bs = as ×ˢ bs := by
  simp only [pairs, List.filter_true]
  rfl

theorem filter_product (p : α → β → Bool) (as : List α) (bs : List β) :
    (as ×ˢ bs).filter (fun x => p x.1 x.2) = pairs p as bs := by
  rw [← pairs_true]
  induction as with
  | nil => rfl
  | cons a as ih =>
    have hcons : ∀ q : α → β → Bool, pairs q (a :: as) bs =
        (bs.filter (q a)).map (a, ·) ++ pairs q as bs := fun q => List.flatMap_cons
    rw [hcons, hcons, List.filter_append, ih, List.filter_map, List.filter_true]
    rfl

theorem map_filter_eq_flatMap (q : β → Bool) (f : β → γ) (bs : List β) :
    (bs.filter q).map f = bs.flatMap fun b => if q b then [f b] else [] := by
  induction bs with
  | nil => rfl
  | cons b bs ih => by_cases hq : q b <;> simp [hq, ih]

/-- One more left item comes first, or before the other left items of each right one. -/
theorem pairs_perm_swap (p : α → β → Bool) (as : List α) (bs : List β) :
    (pairs p as bs).Perm (bs.flatMap fun b => (as.filter (p · b)).map (·, b)) := by
  induction as with
  | nil => simp [pairs]
  | cons a as ih =>
    have hcons : ∀ b, ((a :: as).filter (p · b)).map (·, b) =
        (if p a b then [(a, b)] else []) ++ (as.filter (p · b)).map (·, b) := by
      intro b
      by_cases hp : p a b <;> simp [hp]
    simp only [hcons]
    refine List.Perm.trans ?_ (List.flatMap_append_perm bs _ _)
    rw [← map_filter_eq_flatMap]
    exact ih.append_left _

theorem pairs_perm_right (p : α → β → Bool) (as : List α) {bs bs' : List β} (h : bs.Perm bs') :
    (pairs p as bs).Perm (pairs p as bs') :=
  List.Perm.flatMap_left as fun a _ => (h.filter (p a)).map (a, ·)

/-- Parting a list gives the same items, part after part. -/
theorem flatMap_parts_perm [BEq γ] [LawfulBEq γ] (part : α → γ) {parts : List γ} (hn : parts.Nodup)
    {as : List α} (h : ∀ a ∈ as, part a ∈ parts) :
    (parts.flatMap fun c => as.filter (part · == c)).Perm as := by
  induction parts generalizing as with
  | nil =>
    obtain rfl := List.eq_nil_iff_forall_not_mem.2 fun a ha => List.not_mem_nil (h a ha)
    exact .nil
  | cons c parts ih =>
    obtain ⟨hc, hn⟩ := List.nodup_cons.1 hn
    have hothers : ∀ a ∈ as.filter fun a => !(part a == c), part a ∈ parts := by
      intro a ha
      obtain ⟨ha, hne⟩ := List.mem_filter.1 ha
      have := List.mem_cons.1 (h a ha)
      simp_all
    have hrest := ih hn hothers
    have hsame : parts.flatMap (fun d => (as.filter fun a => !(part a == c)).filter (part · == d)) =
        parts.flatMap fun d => as.filter (part · == d) := by
      apply List.flatMap_congr
      intro d hd
      rw [List.filter_filter]
      apply List.filter_congr
      intro a _
      have hne : d ≠ c := fun h => hc (h ▸ hd)
      by_cases had : part a = d <;> simp [had, hne]
    rw [hsame] at hrest
    rw [List.flatMap_cons]
    exact (hrest.append_left _).trans (List.filter_append_perm _ as)

end QueryEngine
