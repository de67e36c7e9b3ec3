import QueryEngine.Error
import QueryEngine.Pile
import QueryEngine.Tuple.Basic
import QueryEngine.Tuple.Word

/-!
# Spilled partitions

Tuples that wait to be joined are set aside in partitions, each written once and then read back
once in the same order. A partition on disk is a file of bytes, written record by record: each tuple
stands behind a word with its length. A partition in memory keeps the tuples as they are.

* `Spill.Partition.push`: sets one more tuple aside.
* `Spill.Partition.reader`: goes from what was written to what is to be read, which on disk are
  bytes without a sign of where a record ends.
* `Spill.Reader.next`, `Spill.Reader.fold`: the next tuple, and what is made of all of them; a
  reader counts what it has still to give (`Spill.Reader.remaining_next`).
-/

namespace QueryEngine.Spill

/-- Where partitions are kept. -/
inductive Medium where
  | disk
  | memory
  deriving DecidableEq, Repr

/-- What was written to a partition. -/
inductive Written where
  | file (records : Pile (List UInt8))
  | tuples (pile : Pile Tuple)
  deriving DecidableEq, Repr

/-- The tuples set aside so far, with their number and the bytes they have. -/
structure Partition where
  written : Written
  count : Nat
  bytes : Nat
  deriving DecidableEq, Repr

namespace Partition

def empty : Medium → Partition
  | .disk => ⟨.file .empty, 0, 0⟩
  | .memory => ⟨.tuples .empty, 0, 0⟩

def isEmpty (p : Partition) : Bool := p.count == 0

/-- A tuple as it is written to a file. -/
def record (t : Tuple) : List UInt8 := Word.bytes t.length ++ t.bytes

/-- Adds a tuple at the end. A file has four bytes for the length of each. -/
def push (p : Partition) (t : Tuple) : Except Error Partition :=
  match p.written with
  | .tuples pile => .ok ⟨.tuples (pile.push t), p.count + 1, p.bytes + t.length⟩
  | .file records =>
    if t.length < 2 ^ 32 then
      .ok ⟨.file (records.push (record t)), p.count + 1, p.bytes + t.length⟩
    else .error (.tupleTooLarge t.length (2 ^ 32 - 1))

end Partition

/-- What is still to be read of a partition. -/
inductive Unread where
  | file (bytes : List UInt8)
  | tuples (list : List Tuple)
  deriving DecidableEq, Repr

/-- Everything that was written, from its beginning. -/
def Written.unread : Written → Unread
  | .file records => .file records.toList.flatten
  | .tuples pile => .tuples pile.toList

/-- What is still to be read of a partition, with the number of tuples that it is. -/
structure Reader where
  unread : Unread
  remaining : Nat
  deriving DecidableEq, Repr

def Partition.reader (p : Partition) : Reader := ⟨p.written.unread, p.count⟩

namespace Reader

/-- The tuple at the front of a file, and the rest of the file. -/
def readFile (bytes : List UInt8) : Except Error (Tuple × List UInt8) :=
  match Word.read? bytes with
  | none => .error (.io "failed to fill whole buffer")
  | some length =>
    let tuple := (bytes.drop 4).take length
    if tuple.length = length then .ok (⟨tuple⟩, bytes.drop (4 + length))
    else .error (.io "failed to fill whole buffer")

/-- The next tuple, or none after the last. -/
def next (r : Reader) : Except Error (Option (Tuple × Reader)) :=
  if r.remaining = 0 then .ok none
  else
    match r.unread with
    | .tuples [] => .error (.internal .shortPartition)
    | .tuples (t :: list) => .ok (some (t, ⟨.tuples list, r.remaining - 1⟩))
    | .file bytes => (readFile bytes).map fun p => some (p.1, ⟨.file p.2, r.remaining - 1⟩)

theorem remaining_next {r r' : Reader} {t : Tuple} (h : r.next = .ok (some (t, r'))) :
    r'.remaining + 1 = r.remaining := by
  unfold next at h
  split at h
  · simp at h
  · split at h
    · simp at h
    · simp only [Except.ok.injEq, Option.some.injEq, Prod.mk.injEq] at h
      rw [← h.2]
      show r.remaining - 1 + 1 = r.remaining
      omega
    · rename_i bytes _
      cases hf : readFile bytes with
      | error e => simp [hf, Except.map] at h
      | ok p =>
        simp only [hf, Except.map, Except.ok.injEq, Option.some.injEq, Prod.mk.injEq] at h
        rw [← h.2]
        show r.remaining - 1 + 1 = r.remaining
        omega

/-- Takes in every tuple that is still to be read, until the end or the first error. -/
def fold {β : Type} (f : β → Tuple → Except Error β) (b : β) (r : Reader) : Except Error β :=
  match h : r.next with
  | .error e => .error e
  | .ok none => .ok b
  | .ok (some (t, r')) =>
    have := remaining_next h
    (f b t).bind fun b => fold f b r'
termination_by r.remaining

end Reader

end QueryEngine.Spill
