import QueryEngine.Error

/-!
# Results that may be errors

Most functions are chains of calls each of which may fail. These lemmas take such a chain apart.

* `bind_eq_ok_iff`: a chain succeeds if every call does.
* `refuse_eq_ok_iff`: a call after a check succeeds if the check does.
* `mapM_eq_ok`, `exists_mapM`, `mapM_eq_error`: calls for the items of a list.
* `Meets`: a condition on the value or on the error, which chains of calls meet if every call does.
-/

namespace QueryEngine

variable {α β : Type}

@[simp] theorem ok_bind (a : α) (f : α → Except Error β) : (Except.ok a >>= f) = f a := rfl

@[simp] theorem error_bind (e : Error) (f : α → Except Error β) :
    (Except.error e >>= f) = .error e := rfl

@[simp] theorem pure_eq_ok (a : α) : (pure a : Except Error α) = .ok a := rfl

@[simp] theorem throw_eq_error (e : Error) : (throw e : Except Error α) = .error e := rfl

theorem bind_eq_ok_iff {x : Except Error α} {f : α → Except Error β} {b : β} :
    (x >>= f) = .ok b ↔ ∃ a, x = .ok a ∧ f a = .ok b := by
  cases x <;> simp

theorem bind_eq_error_iff {x : Except Error α} {f : α → Except Error β} {e : Error} :
    (x >>= f) = .error e ↔ x = .error e ∨ ∃ a, x = .ok a ∧ f a = .error e := by
  cases x <;> simp

/-- What follows a check is reached if the check did not refuse. -/
theorem refuse_eq_ok_iff {p : Prop} [Decidable p] {e : Error} {x : Except Error β} {b : β} :
    (if p then Except.error e else x) = .ok b ↔ ¬p ∧ x = .ok b := by
  by_cases h : p <;> simp [h]

/-! ## Lists -/

theorem mapM_eq_ok {f : α → Except Error β} {g : α → β} {list : List α}
    (h : ∀ a ∈ list, f a = .ok (g a)) : list.mapM f = .ok (list.map g) := by
  induction list with
  | nil => rfl
  | cons a list ih =>
    rw [List.mapM_cons, h a List.mem_cons_self, ih fun b hb => h b (List.mem_cons_of_mem a hb)]
    rfl

theorem exists_mapM {f : α → Except Error β} {list : List α}
    (h : ∀ a ∈ list, ∃ b, f a = .ok b) : ∃ made, list.mapM f = .ok made := by
  induction list with
  | nil => exact ⟨[], rfl⟩
  | cons a list ih =>
    obtain ⟨⟨b, hb⟩, hrest⟩ := List.forall_mem_cons.1 h
    obtain ⟨made, hmade⟩ := ih hrest
    exact ⟨b :: made, by rw [List.mapM_cons, hb, ok_bind, hmade, ok_bind, pure_eq_ok]⟩

/-- If all that can fail fail in one error, it does not matter which is met first. -/
theorem mapM_eq_error {f : α → Except Error β} {e : Error} {list : List α}
    (h : ∃ a ∈ list, f a = .error e) (hall : ∀ a ∈ list, (∃ b, f a = .ok b) ∨ f a = .error e) :
    list.mapM f = .error e := by
  induction list with
  | nil => simp at h
  | cons a list ih =>
    rw [List.mapM_cons]
    rcases hall a List.mem_cons_self with ⟨b, hb⟩ | ha
    · obtain ⟨c, hc, hce⟩ := h
      have hmem : c ∈ list := by
        rcases List.mem_cons.1 hc with rfl | hc
        · rw [hb] at hce
          cases hce
        · exact hc
      rw [hb, ok_bind, ih ⟨c, hmem, hce⟩ fun d hd => hall d (List.mem_cons_of_mem a hd), error_bind]
    · rw [ha, error_bind]

/-! ## Conditions on results -/

/-- The value is good, or the error is one that may be. -/
def Meets (good : α → Prop) (may : Error → Prop) : Except Error α → Prop
  | .ok a => good a
  | .error e => may e

variable {good : α → Prop} {good' : β → Prop} {may : Error → Prop}

@[simp] theorem meets_ok {a : α} : Meets good may (.ok a) ↔ good a := Iff.rfl

@[simp] theorem meets_error {e : Error} : Meets good may (.error e) ↔ may e := Iff.rfl

theorem meets_iff {x : Except Error α} :
    Meets good may x ↔ (∀ a, x = .ok a → good a) ∧ ∀ e, x = .error e → may e := by
  cases x <;> simp

theorem meets_trivial (x : Except Error α) : Meets (fun _ => True) (fun _ => True) x := by
  cases x <;> trivial

theorem Meets.bind {x : Except Error α} {f : α → Except Error β} (h : Meets good may x)
    (hf : ∀ a, good a → Meets good' may (f a)) : Meets good' may (x >>= f) := by
  cases x with
  | error e => exact h
  | ok a => exact hf a h

/-- Calls for the items of a list. -/
theorem Meets.mapM {f : α → Except Error β} {list : List α}
    (h : ∀ a ∈ list, Meets good' may (f a)) : Meets (∀ b ∈ ·, good' b) may (list.mapM f) := by
  induction list with
  | nil => simp
  | cons a list ih =>
    rw [List.mapM_cons]
    refine (h a List.mem_cons_self).bind fun b hb => ?_
    refine (ih fun c hc => h c (List.mem_cons_of_mem a hc)).bind fun bs hbs => ?_
    intro c hc
    rcases List.mem_cons.1 hc with rfl | hc
    · exact hb
    · exact hbs c hc

/-- What taking in one item keeps, taking in a list of them does. -/
theorem Meets.foldlM {f : β → α → Except Error β} {list : List α} {b : β} (hb : good' b)
    (h : ∀ b, good' b → ∀ a ∈ list, Meets good' may (f b a)) :
    Meets good' may (list.foldlM f b) := by
  induction list generalizing b with
  | nil => exact hb
  | cons a list ih =>
    rw [List.foldlM_cons]
    exact (h b hb a List.mem_cons_self).bind fun b hb =>
      ih hb fun b hb c hc => h b hb c (List.mem_cons_of_mem a hc)

end QueryEngine
