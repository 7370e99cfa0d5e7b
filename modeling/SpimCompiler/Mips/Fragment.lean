import SpimCompiler.Mips.Instruction

namespace SpimCompiler.Mips

/-- A line of an assembly program. `verbatim` is text that stands for itself; an empty one at the
end of a program gives it a final line break. -/
inductive Line where
  | directive (name : String)
  | word (label : String)
  | asciiz (label value : String)
  | label (name : String)
  | instr (i : Instr)
  | verbatim (text : String)
deriving DecidableEq, Repr

def Line.text : Line → String
  | .directive name => "." ++ name
  | .word name => name ++ ": .word 0"
  | .asciiz name value => name ++ ": .asciiz \"" ++ value ++ "\""
  | .label name => name ++ ":"
  | .instr i => i.text
  | .verbatim s => s

abbrev Fragment := List Line

namespace Fragment

def text (f : Fragment) : String := String.intercalate "\n" (f.map Line.text)

@[simp]
theorem text_nil : text [] = "" := rfl

@[simp]
theorem text_singleton (l : Line) : text [l] = l.text :=
  String.intercalate_singleton

theorem text_cons_cons (l m : Line) (f : Fragment) :
    text (l :: m :: f) = l.text ++ "\n" ++ text (m :: f) := by
  simp [text, String.intercalate_cons_cons]

def ofText (s : String) : Fragment := if s.isEmpty then [] else [.verbatim s]

end Fragment

/-- The number of lines of a text. A line break ends a line, and the last line needs none. -/
def lineCount (s : String) : Nat :=
  let cs := s.toList
  cs.count '\n' + if cs.isEmpty || cs.getLast? == some '\n' then 0 else 1

end SpimCompiler.Mips
