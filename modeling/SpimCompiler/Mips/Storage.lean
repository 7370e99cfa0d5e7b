import Std.Data.TreeMap
import SpimCompiler.Json.Basic

namespace SpimCompiler.Mips

structure Labels where
  /-- The number of the next label. It is unbounded: labels never start over. -/
  next : Nat := 0
deriving DecidableEq, Repr

def Labels.mint (l : Labels) (base : String) : String × Labels :=
  (base ++ "_" ++ toString l.next, ⟨l.next + 1⟩)

structure Cell where
  label : String
  scope : String
  name : String
deriving DecidableEq, Repr

def Cell.labelFor (scope name : String) : String :=
  if scope.isEmpty then "var_" ++ name else "var_" ++ scope ++ "_" ++ name

def Cell.of (scope name : String) : Cell := ⟨labelFor scope name, scope, name⟩

def Cell.key (c : Cell) : String × String := (c.scope, c.name)

def Cell.order : String × String → String × String → Ordering :=
  compareLex (compareOn Prod.fst) (compareOn Prod.snd)

instance : Std.TransCmp Cell.order := inferInstanceAs (Std.TransCmp (compareLex _ _))

instance : Std.LawfulEqCmp Cell.order where
  eq_of_compare {a b} h := by
    obtain ⟨hscope, hname⟩ := compareLex_eq_eq.1 h
    exact Prod.ext (Std.LawfulEqOrd.eq_of_compare hscope) (Std.LawfulEqOrd.eq_of_compare hname)

/-- The cells in use, in the order in which they were asked for first, and for each variable the
position of its cell among them. -/
structure Storage where
  cells : Array Cell := #[]
  index : Std.TreeMap (String × String) Nat Cell.order := ∅
  getElem?_index (k : String × String) : index[k]? = cells.findIdx? (·.key == k) := by simp

namespace Storage

variable (s : Storage) (scope name : String)

def find? : Option Cell := s.index[(scope, name)]?.bind fun i => s.cells[i]?

theorem find?_eq : s.find? scope name = s.cells.find? (·.key == (scope, name)) := by
  rw [find?, s.getElem?_index, ← Array.find?_eq_bind_findIdx?_getElem?]

theorem getElem?_index_eq_none (h : s.find? scope name = none) :
    s.index[(scope, name)]? = none := by
  rw [find?_eq, Array.find?_eq_none] at h
  rw [s.getElem?_index, Array.findIdx?_eq_none_iff]
  exact fun c hc => Bool.eq_false_iff.2 (h c hc)

def push (h : s.find? scope name = none) : Storage where
  cells := s.cells.push (.of scope name)
  index := s.index.insert (scope, name) s.cells.size
  getElem?_index k := by
    rw [Std.TreeMap.getElem?_insert, Array.findIdx?_push, ← s.getElem?_index]
    by_cases hk : (scope, name) = k
    · subst hk
      simp [s.getElem?_index_eq_none scope name h, Cell.key, Cell.of]
    · have hne : ((Cell.of scope name).key == k) = false := beq_false_of_ne hk
      simp [hk, hne]

def allocate : String × Storage :=
  match h : s.find? scope name with
  | some c => (c.label, s)
  | none => (Cell.labelFor scope name, s.push scope name h)

@[simp]
theorem toList_cells_push (h : s.find? scope name = none) :
    (s.push scope name h).cells.toList = s.cells.toList ++ [.of scope name] :=
  Array.toList_push

theorem allocate_of_find? {c : Cell} (h : s.find? scope name = some c) :
    s.allocate scope name = (c.label, s) := by
  unfold allocate
  split <;> simp_all

theorem allocate_of_find?_none (h : s.find? scope name = none) :
    s.allocate scope name = (Cell.labelFor scope name, s.push scope name h) := by
  unfold allocate
  split <;> simp_all

end Storage

structure Constant where
  label : String
  value : String
deriving DecidableEq, Repr

structure Pool where
  entries : Array Constant := #[]
deriving DecidableEq, Repr

namespace Pool

def push (p : Pool) (label value : String) : Pool := ⟨p.entries.push ⟨label, value⟩⟩

def toJson (p : Pool) : Json :=
  .obj [("entries", .arr (p.entries.toList.map fun c =>
    .obj [("label", .str c.label), ("value", .str c.value)]))]

end Pool

end SpimCompiler.Mips
