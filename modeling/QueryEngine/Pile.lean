/-!
# Piles

A pile is a list that grows at its end. Its items are kept newest first, so that putting one more
on it costs the same however many there are, and they are read oldest first.

* `Pile.push`: puts one more item on a pile.
* `Pile.toList`: all items, in the order in which they were put there; `Pile.toList_push` is all
  there is to know about it.
-/

namespace QueryEngine

/-- Items of which each was put on top of those before it. -/
@[ext] structure Pile (α : Type) where
  newestFirst : List α
  deriving DecidableEq, Repr

namespace Pile

variable {α : Type}

def empty : Pile α := ⟨[]⟩

instance : Inhabited (Pile α) := ⟨empty⟩

def push (p : Pile α) (a : α) : Pile α := ⟨a :: p.newestFirst⟩

/-- The items, oldest first. -/
def toList (p : Pile α) : List α := p.newestFirst.reverse

/-- The pile of the items of a list, of which the last is on top. -/
def ofList (items : List α) : Pile α := ⟨items.reverse⟩

def isEmpty (p : Pile α) : Bool := p.newestFirst.isEmpty

@[simp] theorem toList_empty : (empty : Pile α).toList = [] := rfl

@[simp] theorem toList_push (p : Pile α) (a : α) : (p.push a).toList = p.toList ++ [a] :=
  List.reverse_cons

@[simp] theorem toList_ofList (items : List α) : (ofList items).toList = items :=
  List.reverse_reverse items

@[simp] theorem push_ofList (items : List α) (a : α) :
    (ofList items).push a = ofList (items ++ [a]) := by
  simp [ofList, push]

@[simp] theorem ofList_toList (p : Pile α) : ofList p.toList = p :=
  Pile.ext (List.reverse_reverse p.newestFirst)

@[simp] theorem isEmpty_toList (p : Pile α) : p.toList.isEmpty = p.isEmpty :=
  List.isEmpty_reverse

@[simp] theorem isEmpty_ofList (items : List α) : (ofList items).isEmpty = items.isEmpty :=
  List.isEmpty_reverse

end Pile

end QueryEngine
