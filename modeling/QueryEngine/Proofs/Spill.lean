import QueryEngine.Proofs.Outcome
import QueryEngine.Spill

/-!
# Partitions give back what was put in

On disk a partition is one string of bytes in which nothing marks where a record begins, and it is
read back by the count of its tuples alone. Both media behave as the list of the tuples pushed.

* `Partition.push_ofTuples`, `Partition.push_eq_error`: pushing adds at the end, unless a file has
  no room for the length.
* `Reader.next_ofTuples`, `Reader.fold_ofTuples`: reading gives the tuples in the order they were
  pushed.
* `transcript`: all that is seen of a partition, from the first push to the last read.
-/

namespace QueryEngine.Spill

/-- Whether a tuple can be set aside. A file has four bytes for its length. -/
def Medium.takes : Medium → Tuple → Bool
  | disk, t => t.length < 2 ^ 32
  | memory, _ => true

theorem Medium.disk_takes_iff {t : Tuple} : Medium.disk.takes t = true ↔ t.length < 2 ^ 32 :=
  decide_eq_true_iff

theorem Medium.takes_of_short {medium : Medium} {t : Tuple} (h : t.length < 2 ^ 32) :
    medium.takes t = true := by
  cases medium with
  | disk => exact Medium.disk_takes_iff.2 h
  | memory => rfl

variable {medium : Medium} {tuples : List Tuple} {t : Tuple}

namespace Partition

/-- The partition that holds some tuples. -/
def ofTuples (medium : Medium) (tuples : List Tuple) : Partition where
  written := match medium with
    | .disk => .file (.ofList (tuples.map record))
    | .memory => .tuples (.ofList tuples)
  count := tuples.length
  bytes := (tuples.flatMap Tuple.bytes).length

theorem ofTuples_nil (medium : Medium) : ofTuples medium [] = .empty medium := by
  cases medium <;> rfl

@[simp] theorem count_ofTuples : (ofTuples medium tuples).count = tuples.length := rfl

theorem push_ofTuples (h : medium.takes t = true) :
    (ofTuples medium tuples).push t = .ok (ofTuples medium (tuples ++ [t])) := by
  cases medium with
  | disk =>
    have hlen : t.length < 2 ^ 32 := Medium.disk_takes_iff.1 h
    simp only [push, ofTuples, if_pos hlen]
    simp [Tuple.length]
  | memory => simp [push, ofTuples, Tuple.length]

theorem push_eq_error (h : medium.takes t = false) :
    (ofTuples medium tuples).push t = .error (.tupleTooLarge t.length (2 ^ 32 - 1)) := by
  cases medium with
  | disk =>
    have hlen : ¬t.length < 2 ^ 32 := fun hlt => by simp [Medium.disk_takes_iff.2 hlt] at h
    simp only [push, ofTuples, if_neg hlen]
  | memory => simp [Medium.takes] at h

end Partition

namespace Reader

/-- The reader that has still to give some tuples. -/
def ofTuples (medium : Medium) (tuples : List Tuple) : Reader where
  unread := match medium with
    | .disk => .file (tuples.flatMap Partition.record)
    | .memory => .tuples tuples
  remaining := tuples.length

theorem reader_ofTuples : (Partition.ofTuples medium tuples).reader = ofTuples medium tuples := by
  cases medium <;>
    simp [Partition.reader, Partition.ofTuples, Written.unread, ofTuples, List.flatMap_def]

/-- The first record of a file, whatever comes after it. -/
theorem readFile_record (h : t.length < 2 ^ 32) (rest : List UInt8) :
    readFile (Partition.record t ++ rest) = .ok (t, rest) := by
  have hword : Word.read? (Partition.record t ++ rest) = some t.length := by
    rw [Partition.record, List.append_assoc, Word.read?_bytes_append, Nat.mod_eq_of_lt h]
  have hdrop : (Partition.record t ++ rest).drop 4 = t.bytes ++ rest := by
    rw [Partition.record, List.append_assoc]
    rfl
  have htake : (t.bytes ++ rest).take t.length = t.bytes := List.take_left
  have hrest : (Partition.record t ++ rest).drop (4 + t.length) = rest := by
    rw [← List.drop_drop, hdrop]
    exact List.drop_left
  have hlen : t.bytes.length = t.length := rfl
  simp only [readFile, hword, hdrop, htake, hrest, hlen, if_true]

theorem next_ofTuples_nil (medium : Medium) : (ofTuples medium []).next = .ok none := by
  simp [next, ofTuples]

theorem next_file (bytes : List UInt8) (n : Nat) :
    (⟨.file bytes, n + 1⟩ : Reader).next =
      (readFile bytes).map fun p => some (p.1, ⟨.file p.2, n⟩) := by
  simp [next]

theorem next_ofTuples (tuples : List Tuple) (h : medium.takes t = true) :
    (ofTuples medium (t :: tuples)).next = .ok (some (t, ofTuples medium tuples)) := by
  cases medium with
  | disk =>
    have hread := readFile_record (Medium.disk_takes_iff.1 h) (tuples.flatMap Partition.record)
    rw [ofTuples, List.flatMap_cons, List.length_cons, next_file, hread]
    rfl
  | memory => simp [next, ofTuples]

theorem fold_ofTuples {β : Type} (f : β → Tuple → Except Error β) (b : β)
    (h : ∀ t ∈ tuples, medium.takes t = true) :
    (ofTuples medium tuples).fold f b = tuples.foldlM f b := by
  induction tuples generalizing b with
  | nil =>
    have hnext := next_ofTuples_nil medium
    rw [fold]
    split
    · simp_all
    · rfl
    · simp_all
  | cons t tuples ih =>
    have hnext := next_ofTuples tuples (h t List.mem_cons_self)
    rw [fold, List.foldlM_cons]
    split
    · simp_all
    · simp_all
    · rename_i hn
      rw [hnext] at hn
      simp only [Except.ok.injEq, Option.some.injEq, Prod.mk.injEq] at hn
      obtain ⟨rfl, rfl⟩ := hn
      exact congrArg _ (funext fun b => ih b fun t ht => h t (List.mem_cons_of_mem _ ht))

end Reader

/-! ## What is seen of a partition -/

/-- How many tuples a partition has, how many bytes, and whether it is empty. -/
def Partition.sizes (p : Partition) : Nat × Nat × Bool := (p.count, p.bytes, p.isEmpty)

/-- Pushes some tuples one after another, with the sizes after each. -/
def Partition.pushAll (p : Partition) :
    List Tuple → Except Error (List (Nat × Nat × Bool) × Partition)
  | [] => .ok ([], p)
  | t :: tuples => do
    let p ← p.push t
    let (sizes, full) ← p.pushAll tuples
    return (p.sizes :: sizes, full)

/-- Reads so many times, with the answer each time and what remains after it. The end moves a
reader no further. -/
def Reader.readTimes (r : Reader) : Nat → Except Error (List (Option Tuple × Nat) × Reader)
  | 0 => .ok ([], r)
  | count + 1 => do
    let answer ← r.next
    let later := (answer.map (·.2)).getD r
    let (answers, last) ← later.readTimes count
    return ((answer.map (·.1), later.remaining) :: answers, last)

/-- What the pushes and the reads of one partition show. -/
structure Transcript where
  pushes : List (Nat × Nat × Bool)
  reads : List (Option Tuple × Nat)
  deriving DecidableEq, Repr

/-- Pushes some tuples onto a new partition, and then reads it so many times. -/
def transcript (medium : Medium) (tuples : List Tuple) (count : Nat) : Except Error Transcript := do
  let (pushes, p) ← (Partition.empty medium).pushAll tuples
  let (reads, _) ← p.reader.readTimes count
  return ⟨pushes, reads⟩

/-- The number of bytes of some tuples. -/
def totalLength : List Tuple → Nat
  | [] => 0
  | t :: tuples => t.length + totalLength tuples

theorem length_flatMap_bytes (tuples : List Tuple) :
    (tuples.flatMap Tuple.bytes).length = totalLength tuples := by
  induction tuples with
  | nil => rfl
  | cons t tuples ih =>
    rw [List.flatMap_cons, List.length_append, ih]
    rfl

theorem Partition.sizes_ofTuples :
    (ofTuples medium tuples).sizes = (tuples.length, totalLength tuples, tuples.isEmpty) := by
  have hbytes := length_flatMap_bytes tuples
  have hempty : (tuples.length == 0) = tuples.isEmpty := by cases tuples <;> rfl
  simp only [sizes, ofTuples, isEmpty, hbytes, hempty]

/-- Every push adds its tuple to the sizes, and nothing else. -/
theorem Partition.pushAll_ofTuples (medium : Medium) (done : List Tuple)
    (h : ∀ t ∈ tuples, medium.takes t = true) : (ofTuples medium done).pushAll tuples =
      .ok ((List.range tuples.length).map fun i =>
          (ofTuples medium (done ++ tuples.take (i + 1))).sizes,
        ofTuples medium (done ++ tuples)) := by
  induction tuples generalizing done with
  | nil => simp [pushAll]
  | cons t tuples ih =>
    obtain ⟨ht, htuples⟩ := List.forall_mem_cons.1 h
    have hrest := ih (done ++ [t]) htuples
    simp only [List.append_assoc, List.singleton_append] at hrest
    simp only [pushAll, push_ofTuples ht, ok_bind, hrest, pure_eq_ok, List.length_cons,
      List.range_succ_eq_map, List.map_cons, List.map_map, List.take_succ_cons]
    rfl

/-- Every read takes the tuple at the front, as long as there is one. -/
theorem Reader.readTimes_ofTuples (tuples : List Tuple) (count : Nat)
    (h : ∀ t ∈ tuples, medium.takes t = true) : (ofTuples medium tuples).readTimes count =
      .ok ((List.range count).map fun i => (tuples[i]?, tuples.length - (i + 1)),
        ofTuples medium (tuples.drop count)) := by
  induction count generalizing tuples with
  | zero => rfl
  | succ count ih =>
    cases tuples with
    | nil =>
      have hnil := ih [] h
      simp only [readTimes, next_ofTuples_nil, ok_bind, Option.map_none, Option.getD_none, hnil,
        pure_eq_ok, List.range_succ_eq_map, List.map_cons, List.map_map, List.drop_nil]
      have hrest : (fun i => (([] : List Tuple)[i]?, ([] : List Tuple).length - (i + 1))) =
          (fun i => (([] : List Tuple)[i]?, ([] : List Tuple).length - (i + 1))) ∘ Nat.succ := by
        funext i
        simp
      rw [← hrest]
      rfl
    | cons t tuples =>
      obtain ⟨ht, htuples⟩ := List.forall_mem_cons.1 h
      simp only [readTimes, next_ofTuples tuples ht, ok_bind, Option.map_some, Option.getD_some,
        ih tuples htuples, pure_eq_ok, List.range_succ_eq_map, List.map_cons, List.map_map,
        List.drop_succ_cons, List.getElem?_cons_zero]
      simp [ofTuples]

/-- **A partition gives back what was pushed**, in the same order and once, and then nothing for as
long as it is read. Its sizes are those of the tuples pushed so far, and what remains is what was
not yet read. So a partition on disk shows what one in memory does: its file holds the records one
after another, and every read leaves it where the next record begins. -/
theorem transcript_eq (h : ∀ t ∈ tuples, t.length < 2 ^ 32) (count : Nat) :
    (∀ medium, transcript medium tuples count = .ok {
      pushes := (List.range tuples.length).map fun i =>
        (i + 1, totalLength (tuples.take (i + 1)), false)
      reads := (List.range count).map fun i => (tuples[i]?, tuples.length - (i + 1)) }) ∧
    transcript .disk tuples count = transcript .memory tuples count ∧
    ∃ pushes p reads r, (Partition.empty .disk).pushAll tuples = .ok (pushes, p) ∧
      p.written.unread = .file (tuples.flatMap Partition.record) ∧
      p.reader.readTimes count = .ok (reads, r) ∧
      r.unread = .file ((tuples.drop count).flatMap Partition.record) := by
  have htakes : ∀ medium : Medium, ∀ t ∈ tuples, medium.takes t = true :=
    fun _ t ht => Medium.takes_of_short (h t ht)
  have hpush := fun medium => Partition.pushAll_ofTuples medium [] (htakes medium)
  simp only [List.nil_append, Partition.ofTuples_nil] at hpush
  have hread : ∀ medium, (Partition.ofTuples medium tuples).reader.readTimes count =
      .ok ((List.range count).map fun i => (tuples[i]?, tuples.length - (i + 1)),
        Reader.ofTuples medium (tuples.drop count)) := fun medium => by
    rw [Reader.reader_ofTuples, Reader.readTimes_ofTuples tuples count (htakes medium)]
  have hexact : ∀ medium, transcript medium tuples count = .ok {
      pushes := (List.range tuples.length).map fun i =>
        (i + 1, totalLength (tuples.take (i + 1)), false)
      reads := (List.range count).map fun i => (tuples[i]?, tuples.length - (i + 1)) } := by
    intro medium
    simp only [transcript, hpush, ok_bind, hread, pure_eq_ok]
    congr 2
    apply List.map_congr_left
    intro i hi
    have hi := List.mem_range.1 hi
    have hne : (tuples.take (i + 1)).isEmpty = false := by
      cases tuples with
      | nil => exact absurd hi (Nat.not_lt_zero i)
      | cons t tuples => rfl
    rw [Partition.sizes_ofTuples, List.length_take, Nat.min_eq_left hi, hne]
  refine ⟨hexact, (hexact .disk).trans (hexact .memory).symm, _, _, _, _, hpush .disk, ?_,
    hread .disk, rfl⟩
  simp [Partition.ofTuples, Written.unread, List.flatMap_def]

/-- An empty tuple between two others, read once more than there are tuples. -/
theorem transcript_eq_bytes :
    transcript .disk [⟨[1, 2]⟩, ⟨[]⟩, ⟨[3]⟩] 4 = .ok {
      pushes := [(1, 2, false), (2, 2, false), (3, 3, false)]
      reads := [(some ⟨[1, 2]⟩, 2), (some ⟨[]⟩, 1), (some ⟨[3]⟩, 0), (none, 0)] } := by
  have hshort : ∀ t ∈ [(⟨[1, 2]⟩ : Tuple), ⟨[]⟩, ⟨[3]⟩], t.length < 2 ^ 32 := by decide
  exact (transcript_eq hshort 4).1 .disk

end QueryEngine.Spill
