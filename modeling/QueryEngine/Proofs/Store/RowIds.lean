import QueryEngine.Proofs.Store.Session

/-!
# Row ids of 64 bits

A row is found under its id less one. That subtraction is the only arithmetic on the way, and there
is one id that it is too much for, the least number of 64 bits. Under every other id a machine reads
what `Store.readTuple` says.

* `Store.readTuple?_eq`: reading under an id that the subtraction is good for.
* `Session.reads_exactly`: what is read under every id, whatever a store was asked before.
-/

namespace QueryEngine

/-! ## The id less one -/

namespace RowId

variable {rowId : Int64}

theorem ssubOverflow_one (rowId : Int64) :
    rowId.toBitVec.ssubOverflow 1 = decide (rowId = Int64.minValue) := by
  have hlow := rowId.le_toInt
  have hhigh := rowId.toInt_lt
  have hone : (1 : BitVec 64).toInt = 1 := by decide
  have hmin : rowId = Int64.minValue ↔ rowId.toInt = -2 ^ 63 := by
    rw [← Int64.toInt_inj, Int64.toInt_minValue]
  simp only [BitVec.ssubOverflow, Int64.toInt_toBitVec, hone, hmin]
  rw [Bool.eq_iff_iff]
  simp only [ge_iff_le, Bool.or_eq_true, decide_eq_true_eq]
  omega

theorem toInt_sub_one (h : rowId ≠ Int64.minValue) : (rowId - 1).toInt = rowId.toInt - 1 := by
  have hno : ¬rowId.toBitVec.ssubOverflow (1 : Int64).toBitVec := by
    rw [show (1 : Int64).toBitVec = 1 from rfl, ssubOverflow_one]
    simpa using h
  have hsub := BitVec.toInt_sub_of_not_ssubOverflow hno
  rwa [← Int64.toBitVec_sub] at hsub

end RowId

/-! ## Reading under an id -/

variable {name : String} {rowId : Int64}

theorem Table.readTuple_of_outside {t : Table} {id : Int}
    (h : ¬(1 ≤ id ∧ id ≤ t.rows.length)) :
    t.readTuple name id = .error (.storage (.rowNotFound id name)) := by
  unfold readTuple
  by_cases hlow : id < 1
  · rw [if_pos hlow]
  · have hpast : t.rows[(id - 1).toNat]? = none := by
      apply List.getElem?_eq_none
      omega
    rw [if_neg hlow, hpast]

theorem Table.readTuple?_eq (t : Table) (name : String) (h : rowId ≠ Int64.minValue) :
    t.readTuple? name rowId = some (t.readTuple name rowId.toInt) := by
  have hsub := RowId.toInt_sub_one h
  have hneg : rowId - 1 < 0 ↔ rowId.toInt < 1 := by
    rw [Int64.lt_iff_toInt_lt, hsub, Int64.toInt_zero]
    omega
  have hplace : (rowId - 1).toNatClampNeg = (rowId.toInt - 1).toNat := by
    rw [Int64.toNatClampNeg, hsub]
  simp only [readTuple?, readTuple, RowId.ssubOverflow_one, h, decide_false, hneg, hplace,
    Bool.false_eq_true, if_false]

theorem Table.readTuple?_minValue (t : Table) (name : String) :
    t.readTuple? name Int64.minValue = none := by
  simp only [readTuple?, RowId.ssubOverflow_one, decide_true, if_true]

theorem Store.readTuple?_eq (s : Store) (name : String) (h : rowId ≠ Int64.minValue) :
    s.readTuple? name rowId = some (s.readTuple name rowId.toInt) := by
  rw [readTuple?, readTuple]
  cases s.table name with
  | error e => rfl
  | ok t => exact t.readTuple?_eq name h

namespace Session

variable {limit : Nat} {session : Session} {t : Table}

/-- Under an id that counts a row is the tuple that was made of the values accepted with that
id. -/
theorem Sound.exists_readTuple_eq (h : session.Sound limit) (ht : session.store.table name = .ok t)
    {id : Int} (hlow : 1 ≤ id) (hhigh : id ≤ t.rows.length) :
    ∃ values tuple, (session.accepted name)[(id - 1).toNat]? = some (id, values) ∧
      t.layout.encode values = .ok tuple ∧ t.readTuple name id = .ok tuple := by
  have hsound := h.reachable.sound_of_table ht
  have hkept := h.rows name t ht
  have hplace : (id - 1).toNat < t.rows.length := by omega
  have hplace' : (id - 1).toNat < (session.accepted name).length := by
    rwa [hkept.length_eq]
  obtain ⟨hsame, hencode⟩ := hkept.get hplace' hplace
  have hid := hsound.ids _ _ (List.getElem?_eq_getElem hplace)
  have hnext : ((id - 1).toNat : Int) + 1 = id := by omega
  have hcount : (t.rows[(id - 1).toNat]).1 = id := hid.trans hnext
  have hread := hsound.readTuple_eq name (List.getElem_mem hplace)
  rw [hcount] at hread
  refine ⟨_, _, ?_, hencode, hread⟩
  rw [List.getElem?_eq_getElem hplace', Option.some_inj]
  exact Prod.ext (hsame.symm.trans hcount) rfl

/-- **What a machine reads under an id of 64 bits**, whatever the store was asked before: the tuple
of the accepted row that the id counts, from one on, and the error of a missing row under every
other id but one. Under the least id the subtraction overflows. -/
theorem reads_exactly (calls : List (Visit × Call))
    (ht : (replay limit calls).store.table name = .ok t) :
    ((replay limit calls).accepted name).length = t.rows.length ∧
    (∀ rowId : Int64, 1 ≤ rowId.toInt → rowId.toInt ≤ t.rows.length → ∃ values tuple,
      ((replay limit calls).accepted name)[(rowId.toInt - 1).toNat]? =
        some (rowId.toInt, values) ∧
      t.layout.encode values = .ok tuple ∧
      (replay limit calls).store.readTuple? name rowId = some (.ok tuple)) ∧
    (∀ rowId : Int64, rowId ≠ Int64.minValue → ¬(1 ≤ rowId.toInt ∧ rowId.toInt ≤ t.rows.length) →
      (replay limit calls).store.readTuple? name rowId =
        some (.error (.storage (.rowNotFound rowId.toInt name)))) ∧
    (replay limit calls).store.readTuple? name Int64.minValue = none := by
  have hsound := sound_replay limit calls
  refine ⟨(hsound.rows name t ht).length_eq, fun rowId hlow hhigh => ?_,
    fun rowId hne houtside => ?_, ?_⟩
  · obtain ⟨values, tuple, haccepted, hencode, hread⟩ :=
      hsound.exists_readTuple_eq ht hlow hhigh
    have hne : rowId ≠ Int64.minValue := by
      rintro rfl
      exact absurd hlow (by decide)
    refine ⟨values, tuple, haccepted, hencode, ?_⟩
    rw [Store.readTuple?_eq _ _ hne, Store.readTuple, ht, ok_bind, hread]
  · rw [Store.readTuple?_eq _ _ hne, Store.readTuple, ht, ok_bind,
      Table.readTuple_of_outside houtside]
  · simp only [Store.readTuple?, ht, Table.readTuple?_minValue]

theorem reads_exactly_second :
    (replay 64 zeros).store.readTuple? "t" 2 = some (.ok ⟨[0, 0, 0, 0, 7, 0, 0, 0]⟩) ∧
    (replay 64 zeros).store.readTuple? "t" Int64.maxValue =
      some (.error (.storage (.rowNotFound 9223372036854775807 "t"))) := by
  obtain ⟨t, ht, hlayout, hlength⟩ : ∃ t, (replay 64 zeros).store.table "t" = .ok t ∧
      t.layout = ⟨[.real "x", .integer "n"], 64⟩ ∧ t.rows.length = 2 :=
    ⟨_, by rfl, by rfl, by rfl⟩
  obtain ⟨-, hrows, hmissing, -⟩ := reads_exactly zeros ht
  obtain ⟨values, tuple, haccepted, hencode, hread⟩ :=
    hrows 2 (by decide) (by rw [hlength]; decide)
  obtain rfl : values = [.real (.zero false), .integer 7] :=
    (Prod.mk.inj (Option.some.inj haccepted)).2.symm
  obtain rfl : tuple = ⟨[0, 0, 0, 0, 7, 0, 0, 0]⟩ := by
    rw [hlayout] at hencode
    exact (Except.ok.inj hencode).symm
  exact ⟨hread, hmissing _ (by decide) (by rw [hlength]; decide)⟩

/-- The least id is no row's, and is answered with no error. -/
theorem not_always_reads : ¬∀ limit calls name t,
    (replay limit calls).store.table name = .ok t → ∀ rowId : Int64,
    ¬(1 ≤ rowId.toInt ∧ rowId.toInt ≤ t.rows.length) →
    (replay limit calls).store.readTuple? name rowId =
      some (.error (.storage (.rowNotFound rowId.toInt name))) := by
  intro h
  have hleast := h 64 zeros "t" _ (by rfl) Int64.minValue (by decide)
  exact absurd hleast (by decide)

end Session

end QueryEngine
