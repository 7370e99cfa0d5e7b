import Std.Data.TreeMap
import SpimCompiler.Tree.Node

namespace SpimCompiler

instance : Std.TransOrd NodeId := inferInstanceAs (Std.TransCmp (compareOn NodeId.val))

instance : Std.LawfulEqOrd NodeId where
  eq_of_compare {a b} h := by
    have hv : a.val = b.val := Std.LawfulEqOrd.eq_of_compare h
    cases a
    cases b
    cases hv
    rfl

structure NodeTable (α : Type) where
  entries : Std.TreeMap NodeId α := ∅

namespace NodeTable

variable {α : Type}

def get? (t : NodeTable α) (id : NodeId) : Option α := t.entries[id]?

def contains (t : NodeTable α) (id : NodeId) : Bool := t.entries.contains id

def size (t : NodeTable α) : Nat := t.entries.size

def isEmpty (t : NodeTable α) : Bool := t.entries.isEmpty

def toList (t : NodeTable α) : List (NodeId × α) := t.entries.toList

/-- Writes a value for a node that has none. -/
def write (t : NodeTable α) (id : NodeId) (a : α) : NodeTable α := ⟨t.entries.insertIfNew id a⟩

@[simp]
theorem get?_empty (id : NodeId) : ({} : NodeTable α).get? id = none := by
  simp [get?]

theorem contains_eq_isSome_get? (t : NodeTable α) (id : NodeId) :
    t.contains id = (t.get? id).isSome := by
  simp [contains, get?, Std.TreeMap.isSome_getElem?_eq_contains]

theorem get?_write (t : NodeTable α) (id i : NodeId) (a : α) :
    (t.write id a).get? i = if id = i ∧ t.get? id = none then some a else t.get? i := by
  have h : id ∉ t.entries ↔ t.entries[id]? = none := by simp
  simp only [get?, write, Std.TreeMap.getElem?_insertIfNew, h, Std.LawfulEqOrd.compare_eq_iff_eq]
  congr

end NodeTable

end SpimCompiler
