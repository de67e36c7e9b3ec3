import Mathlib.Algebra.Ring.Nat
import Mathlib.Data.List.Induction
import Mathlib.Tactic.Choose
import QueryEngine.Proofs.Key.Parts
import QueryEngine.Proofs.Multimap
import QueryEngine.Proofs.Store.Edit

/-!
# Sessions with a multimap

A multimap is filled in place: a call that is refused could leave part of its work behind. A
session is a multimap with all that was asked of it since it was empty, and what it answered.

* `Multimap.Call.run_edit`: a call in place writes what the call comes to, and nothing at all if
  that is refused.
* `Multimap.Files`: the insertions that were accepted, each in the bucket of its key and nowhere
  else.
* `Multimap.Exact`: what this is worth to those who ask for items by their values.
* `Multimap.Session.exact_replay`: it holds after any calls.
-/

namespace QueryEngine.Multimap

variable {α : Type}

/-! ## Calls -/

/-- What is done to a multimap step by step. What was done before an error stays done. -/
abbrev Edit (α β : Type) : Type := EStateM Error (Multimap α) β

/-- Puts an item under a value: first it goes into a bucket, and then it is counted. -/
def insertInPlace (v : Value) (item : α) : Edit α Unit := do
  let k ← MonadExcept.ofExcept (Key.typed v (← MonadState.get).keyType)
  modify fun m => { m with
    buckets := m.buckets.update k fun bucket => (bucket.getD .empty).push item }
  modify fun m => { m with size := m.size + 1 }

/-- What can be asked of a multimap. -/
inductive Call (α : Type) where
  | insert (v : Value) (item : α)
  | get (v : Value)
  deriving DecidableEq, Repr

namespace Call

/-- The value that a call is about. -/
def value : Call α → Value
  | insert v _ | get v => v

/-- What a call comes to: the items that were asked for, if any were, and the new multimap. -/
def change (m : Multimap α) : Call α → Except Error (List α × Multimap α)
  | insert v item => do return ([], ← m.insert v item)
  | get v => do return (← m.get v, m)

/-- A call in place. -/
def edit : Call α → Edit α (List α)
  | insert v item => do
    insertInPlace v item
    return []
  | get v => do MonadExcept.ofExcept ((← MonadState.get).get v)

/-- A call is accepted if its value has a key of the right type. Then it comes to a new multimap,
and otherwise to the error that there is no key. -/
theorem change_eq (c : Call α) (m : Multimap α) :
    (∃ k answer m', Key.typed c.value m.keyType = .ok k ∧ c.change m = .ok (answer, m')) ∨
      ∃ e, Key.typed c.value m.keyType = .error e ∧ c.change m = .error e := by
  cases c with
  | insert v item =>
    rw [value, change]
    cases hk : Key.typed v m.keyType with
    | ok k => exact .inl ⟨k, _, _, rfl, by rw [insert_of_typed hk, ok_bind, pure_eq_ok]⟩
    | error e => exact .inr ⟨e, rfl, by rw [Multimap.insert, hk, error_bind, error_bind]⟩
  | get v =>
    rw [value, change]
    cases hk : Key.typed v m.keyType with
    | ok k => exact .inl ⟨k, _, _, rfl, by rw [get_of_typed hk, ok_bind, pure_eq_ok]⟩
    | error e => exact .inr ⟨e, rfl, by rw [Multimap.get, hk, error_bind, error_bind]⟩

/-- A call in place writes what it comes to, and nothing if it is refused. -/
theorem run_edit (c : Call α) (m : Multimap α) : c.edit.run m = written m (c.change m) := by
  cases c with
  | insert v item =>
    cases hk : Key.typed v m.keyType with
    | ok k =>
      rw [change, insert_of_typed hk]
      simp only [edit, insertInPlace, hk, EStateM.run_bind, EStateM.run_get, EStateM.run_modify,
        EStateM.run_pure, run_ofExcept_ok, ok_bind, pure_eq_ok, written]
    | error e =>
      rw [change, Multimap.insert, hk, error_bind, error_bind]
      simp only [edit, insertInPlace, hk, EStateM.run_bind, EStateM.run_get, run_ofExcept_error,
        written]
  | get v =>
    cases hget : m.get v with
    | ok items =>
      simp only [edit, change, hget, EStateM.run_bind, EStateM.run_get, run_ofExcept_ok, ok_bind,
        pure_eq_ok, written]
    | error e =>
      simp only [edit, change, hget, EStateM.run_bind, EStateM.run_get, run_ofExcept_error,
        error_bind, written]

end Call

/-! ## Filed items -/

variable {m : Multimap α} {keyType : DataType} {filed : List (Value × α)} {v : Value} {k : Key}

/-- The multimap holds the items that were accepted, each under the key of its value. -/
structure Files (m : Multimap α) (keyType : DataType) (accepted : List (Value × α)) : Prop where
  keyType_eq : m.keyType = keyType
  keyed : ∀ e ∈ accepted, ∃ k, Key.typed e.1 keyType = .ok k
  bucket_eq : ∀ k, m.bucket k = (accepted.filter fun e => Key.typed e.1 keyType = .ok k).map (·.2)
  /-- There is no bucket without items. -/
  bucket_ne : ∀ k pile, m.buckets.get? k = some pile → pile.toList ≠ []
  size_eq : m.size = accepted.length

theorem files_empty (keyType : DataType) : (empty keyType : Multimap α).Files keyType [] where
  keyType_eq := rfl
  keyed _ h := nomatch h
  bucket_eq _ := rfl
  bucket_ne _ _ h := nomatch h
  size_eq := rfl

theorem Files.insert (h : m.Files keyType filed) (hk : Key.typed v keyType = .ok k) (item : α) :
    ∃ m', m.insert v item = .ok m' ∧ m'.Files keyType (filed ++ [(v, item)]) := by
  have hinsert := insert_of_typed (h.keyType_eq ▸ hk) item
  obtain ⟨m', hm', -, hbucket⟩ := bucket_insert (h.keyType_eq ▸ hk) item
  obtain rfl := Except.ok.inj (hinsert.symm.trans hm')
  refine ⟨_, hinsert, h.keyType_eq, ?_, fun l => ?_, fun l pile hl => ?_, ?_⟩
  · exact List.forall_mem_append.2 ⟨h.keyed, List.forall_mem_singleton.2 ⟨k, hk⟩⟩
  · rw [hbucket, List.filter_append, List.map_append, ← h.bucket_eq]
    by_cases hl : l = k
    · subst hl
      simp [hk]
    · simp [hk, hl, Ne.symm hl]
  · rw [KeyMap.get?_update] at hl
    split at hl
    · obtain rfl := Option.some.inj hl
      simp
    · exact h.bucket_ne l pile hl
  · rw [List.length_append, ← h.size_eq]
    rfl

/-- A key has a bucket if items were put under it. -/
theorem Files.mem_keys_iff (h : m.Files keyType filed) :
    k ∈ m.buckets.entries.map (·.1) ↔ ∃ e ∈ filed, Key.typed e.1 keyType = .ok k := by
  have hbucket := h.bucket_eq k
  rw [KeyMap.mem_keys_iff]
  constructor
  · rintro ⟨pile, hpile⟩
    have hne : m.bucket k ≠ [] := by
      rw [bucket, hpile]
      exact h.bucket_ne k pile hpile
    obtain ⟨item, hitem⟩ := List.exists_mem_of_ne_nil _ hne
    rw [hbucket] at hitem
    obtain ⟨e, he, -⟩ := List.mem_map.1 hitem
    obtain ⟨he, hk⟩ := List.mem_filter.1 he
    exact ⟨e, he, of_decide_eq_true hk⟩
  · rintro ⟨e, he, hk⟩
    have hmem : e.2 ∈ m.bucket k := by
      rw [hbucket]
      exact List.mem_map_of_mem (List.mem_filter.2 ⟨he, decide_eq_true hk⟩)
    cases hpile : m.buckets.get? k with
    | some pile => exact ⟨pile, rfl⟩
    | none =>
      rw [bucket, hpile] at hmem
      cases hmem

/-! ## What is found -/

/-- What a multimap is worth to those who ask for items by their values: it holds the items that
were accepted, with the values they were put under. -/
structure Exact (m : Multimap α) (keyType : DataType) (accepted : List (Value × α)) : Prop where
  /-- Under a value are the items that were put under values equal to it, in their order. -/
  get_eq : ∀ v, v.dataType = keyType → v.isFinite = true →
    m.get v = .ok ((accepted.filter fun e => e.1.compare v = .ok .eq).map (·.2))
  size_eq : m.size = accepted.length
  size_eq_sum : m.size = (m.buckets.entries.map (·.2.toList.length)).sum
  /-- There are as many keys as there are different values. -/
  keyCount_eq : m.keyCount =
    ((accepted.map (·.1)).pwFilter fun v w => v.compare w ≠ .ok .eq).length
  /-- Only a value of another type and a real that is not finite are refused. -/
  accepts_iff : ∀ c : Call α, (∃ answer m', c.edit.run m = .ok answer m') ↔
    c.value.dataType = keyType ∧ c.value.isFinite = true
  /-- A call that is refused changes nothing. -/
  unchanged : ∀ (c : Call α) e m', c.edit.run m = .error e m' → m' = m

namespace Files

theorem get_eq (h : m.Files keyType filed) (hk : Key.typed v keyType = .ok k) :
    m.get v = .ok ((filed.filter fun e => e.1.compare v = .ok .eq).map (·.2)) := by
  rw [get_of_typed (h.keyType_eq ▸ hk), h.bucket_eq]
  congr 2
  refine List.filter_congr fun e he => decide_eq_decide.2 ?_
  obtain ⟨l, hl⟩ := h.keyed e he
  rw [hl, Except.ok.injEq, Key.compare_of_typed hl hk, Except.ok.injEq,
    Std.LawfulEqOrd.compare_eq_iff_eq]

theorem exists_key (h : m.Files keyType filed) :
    ∃ key : Value × α → Key, ∀ e ∈ filed, Key.typed e.1 keyType = .ok (key e) := by
  have : Nonempty Key := ⟨.text []⟩
  have hkeyed := h.keyed
  choose! key hkey using hkeyed
  exact ⟨key, hkey⟩

theorem size_eq_sum (h : m.Files keyType filed) :
    m.size = (m.buckets.entries.map (·.2.toList.length)).sum := by
  obtain ⟨key, hkey⟩ := h.exists_key
  have hlength : ∀ e ∈ m.buckets.entries,
      e.2.toList.length = (filed.filter (key · = e.1)).length := by
    intro e he
    have hbucket := h.bucket_eq e.1
    rw [bucket, KeyMap.get?_eq_some_iff.2 he, Option.getD_some] at hbucket
    rw [hbucket, List.length_map]
    refine congrArg _ (List.filter_congr fun f hf => decide_eq_decide.2 ?_)
    rw [hkey f hf, Except.ok.injEq]
  have hparts : (m.buckets.entries.flatMap fun e => filed.filter (key · = e.1)).Perm filed :=
    KeyMap.flatMap_parts_perm fun e he => h.mem_keys_iff.2 ⟨e, he, hkey e he⟩
  rw [h.size_eq, ← hparts.length_eq, List.length_flatMap, List.map_congr_left hlength]

theorem keyCount_eq (h : m.Files keyType filed) : m.keyCount =
    ((filed.map (·.1)).pwFilter fun v w => v.compare w ≠ .ok .eq).length := by
  obtain ⟨key, hkey⟩ := h.exists_key
  rw [length_pwFilter_compare hkey, keyCount]
  refine KeyMap.size_eq_of_mem_iff fun k => ?_
  rw [h.mem_keys_iff]
  refine exists_congr fun e => and_congr_right fun he => ?_
  rw [hkey e he, Except.ok.injEq]

theorem exact (h : m.Files keyType filed) : m.Exact keyType filed where
  get_eq v htype hfinite := by
    obtain ⟨k, hk⟩ := Key.exists_typed htype hfinite
    exact h.get_eq hk
  size_eq := h.size_eq
  size_eq_sum := h.size_eq_sum
  keyCount_eq := h.keyCount_eq
  accepts_iff c := by
    have hkey := h.keyType_eq
    rcases c.change_eq m with ⟨k, answer, m', hk, hchange⟩ | ⟨e, hk, hchange⟩ <;>
      rw [hkey] at hk <;> rw [c.run_edit, hchange]
    · exact ⟨fun _ => ⟨Key.dataType_of_typed hk, Key.isFinite_of_typed hk⟩,
        fun _ => ⟨answer, m', rfl⟩⟩
    · refine ⟨fun ⟨_, _, hrun⟩ => (nomatch hrun), fun ⟨htype, hfinite⟩ => ?_⟩
      obtain ⟨k, hk'⟩ := Key.exists_typed htype hfinite
      rw [hk] at hk'
      cases hk'
  unchanged c e m' hrun := by
    rw [c.run_edit] at hrun
    rcases c.change_eq m with ⟨k, answer, m'', -, hchange⟩ | ⟨e', -, hchange⟩ <;>
      rw [hchange] at hrun <;> cases hrun
    rfl

end Files

/-! ## Sessions -/

/-- A multimap with the calls made so far and what they returned, oldest first. -/
structure Session (α : Type) where
  map : Multimap α
  log : List (Call α × Except Error (List α))

namespace Session

/-- One more call. The multimap is as the call leaves it, also when it fails. -/
def call (session : Session α) (c : Call α) : Session α :=
  match c.edit.run session.map with
  | .ok answer m => ⟨m, session.log ++ [(c, .ok answer)]⟩
  | .error e m => ⟨m, session.log ++ [(c, .error e)]⟩

/-- The session that comes of some calls. -/
def replay (keyType : DataType) (calls : List (Call α)) : Session α :=
  calls.foldl call ⟨.empty keyType, []⟩

/-- The item that a call put into the multimap, with its value. -/
def acceptedBy : Call α × Except Error (List α) → Option (Value × α)
  | (.insert v item, .ok _) => some (v, item)
  | _ => none

/-- The insertions that were accepted. -/
def accepted (session : Session α) : List (Value × α) := session.log.filterMap acceptedBy

variable {session : Session α} {c : Call α}

theorem accepted_append (log : List (Call α × Except Error (List α))) (m : Multimap α)
    (entry : Call α × Except Error (List α)) :
    accepted ⟨m, log ++ [entry]⟩ = accepted ⟨m, log⟩ ++ (acceptedBy entry).toList := by
  rw [accepted, List.filterMap_append, List.filterMap_cons]
  cases acceptedBy entry <;> rfl

theorem files_change {answer : List α} {m' : Multimap α} (h : m.Files keyType filed)
    (hchange : c.change m = .ok (answer, m')) :
    m'.Files keyType (filed ++ (acceptedBy (c, .ok answer)).toList) := by
  cases c with
  | insert v item =>
    obtain ⟨m'', hinsert, hpair⟩ := bind_eq_ok_iff.1 hchange
    obtain ⟨rfl, rfl⟩ := Prod.mk.inj (Except.ok.inj hpair)
    obtain ⟨k, hk, -⟩ := bind_eq_ok_iff.1 hinsert
    obtain ⟨m', hm', hfiles⟩ := h.insert (h.keyType_eq ▸ hk) item
    obtain rfl := Except.ok.inj (hinsert.symm.trans hm')
    exact hfiles
  | get v =>
    obtain ⟨items, -, hpair⟩ := bind_eq_ok_iff.1 hchange
    obtain ⟨rfl, rfl⟩ := Prod.mk.inj (Except.ok.inj hpair)
    have hnone : acceptedBy (.get v, .ok items) = (none : Option (Value × α)) := rfl
    rwa [hnone, Option.toList_none, List.append_nil]

theorem files_call (h : session.map.Files keyType session.accepted) (c : Call α) :
    (session.call c).map.Files keyType (session.call c).accepted := by
  obtain ⟨m, log⟩ := session
  rw [call, c.run_edit]
  cases hchange : c.change m with
  | ok p =>
    simp only [written, accepted_append]
    exact files_change h hchange
  | error e =>
    have hnone : acceptedBy (c, .error e) = none := by cases c <;> rfl
    simp only [written, accepted_append, hnone, Option.toList_none, List.append_nil]
    exact h

theorem files_replay (keyType : DataType) (calls : List (Call α)) :
    (replay keyType calls).map.Files keyType (replay keyType calls).accepted := by
  induction calls using List.reverseRecOn with
  | nil => exact files_empty keyType
  | append_singleton calls c ih =>
    have hreplay : replay keyType (calls ++ [c]) = (replay keyType calls).call c :=
      List.foldl_append
    rw [hreplay]
    exact files_call ih c

/-- **Whatever a multimap was asked, it is exact**: under every value it finds the items that were
accepted under equal values, it counts items and keys, and a call that it refuses leaves no
trace. -/
theorem exact_replay (keyType : DataType) (calls : List (Call α)) :
    (replay keyType calls).map.Exact keyType (replay keyType calls).accepted :=
  (files_replay keyType calls).exact

/-- Both zeros are one value. -/
example : (replay .real [.insert (.real (.zero true)) 7, .insert (.real .nan) 8,
    .insert (.real (.zero false)) 9]).map.get (.real (.zero true)) = .ok [7, 9] := by rfl

end Session

end QueryEngine.Multimap
