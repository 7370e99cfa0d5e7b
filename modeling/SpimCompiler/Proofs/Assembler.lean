import Mathlib.Tactic.Common
import SpimCompiler.Proofs.Machine

namespace SpimCompiler.Mips

def isNameChar (c : Char) : Bool := c.isAlphanum || c == '_'

def isName (s : String) : Bool := s.toList.head?.any (!·.isDigit) && s.toList.all isNameChar

def words (cs : List Char) : List String :=
  ((cs.splitOn ' ').filter (· ≠ [])).map String.ofList

def readName (s : String) : Option String := if isName s then some s else none

def Reg.read : String → Option Reg
  | "$zero" => some zero
  | "$v0" => some v0
  | "$a0" => some a0
  | "$t0" => some t0
  | "$t1" => some t1
  | "$t2" => some t2
  | "$t3" => some t3
  | "$t4" => some t4
  | "$t5" => some t5
  | "$sp" => some sp
  | _ => none

def Address.read (s : String) : Option Address :=
  match s.toList.splitOn '(' with
  | [n, base] =>
    if base.getLast? = some ')' then do
      return .offset (← (String.ofList n).toInt?) (← Reg.read (String.ofList base.dropLast))
    else none
  | _ => (readName s).map .cell

def operations : List String :=
  ["add", "sub", "mul", "div", "slt", "sle", "seq", "sne", "sgt", "sge"]

def Instr.readTwo (mnemonic first second : String) : Option Instr := do
  let r ← Reg.read first
  match mnemonic with
  | "li" => return .li r (← second.toInt?)
  | "la" => return .la r (← readName second)
  | "lw" => return .lw r (← Address.read second)
  | "sw" => return .sw r (← Address.read second)
  | "lb" => return .lb r (← Address.read second)
  | "sb" => return .sb r (← Address.read second)
  | "move" => return .move r (← Reg.read second)
  | "beqz" => return .beqz r (← readName second)
  | "bnez" => return .bnez r (← readName second)
  | _ => none

def Instr.readThree (mnemonic first second third : String) : Option Instr := do
  let rd ← Reg.read first
  let rs ← Reg.read second
  match mnemonic with
  | "movn" => return .movn rd rs (← Reg.read third)
  | "addiu" => return .addiu rd rs (← third.toInt?)
  | "xori" => return .xori rd rs (← third.toInt?)
  | _ => if mnemonic ∈ operations then return .arith mnemonic rd rs (← Reg.read third) else none

def Instr.read : List String → Option Instr
  | [mnemonic] => if mnemonic = "syscall" then some .syscall else none
  | [mnemonic, label] => if mnemonic = "j" then (readName label).map .j else none
  | [mnemonic, first, second] => readTwo mnemonic first second
  | [mnemonic, first, second, third] => readThree mnemonic first second third
  | _ => none

/-- What stands between the first and the last quote of a line, which ends with that. -/
def quoted (cs : List Char) : Option String :=
  match cs.dropWhile (· ≠ '"') with
  | _ :: rest =>
    if rest.getLast? = some '"' then some (String.ofList rest.dropLast) else none
  | [] => none

def Line.readLabelled (name : String) (cs : List Char) : List String → Option Line
  | [] => some (.label name)
  | [".word", "0"] => some (.word name)
  | ".asciiz" :: _ => (quoted cs).map (.asciiz name)
  | _ => none

def Line.read (cs : List Char) : Option Line :=
  match words cs with
  | [] => some (.verbatim "")
  | [".data"] => some (.directive "data")
  | [".text"] => some (.directive "text")
  | w :: ws =>
    if w.toList.getLast? = some ':' then do
      readLabelled (← readName (String.ofList w.toList.dropLast)) cs ws
    else (Instr.read (w :: ws)).map .instr

def readProgram (text : String) : Option Fragment := (text.toList.splitOn '\n').mapM Line.read

/-- The state of the assembler: whether it is in the data section, and what it has loaded. -/
structure Loader where
  inData : Bool := false
  image : Image := {}

namespace Image

variable (m : Image)

def addInstr (i : Instr) : Image := { m with code := m.code ++ [i] }

def addBytes (bytes : List UInt8) : Image := { m with data := m.data ++ bytes }

def align : Image := m.addBytes (List.replicate (3 - (m.data.length + 3) % 4) 0)

def addSymbol (name : String) (location : Location) : Image :=
  { m with symbols := m.symbols ++ [(name, location)] }

def define (name : String) (location : Location) : Option Image :=
  if (m.symbols.lookup name).isSome then none else some (m.addSymbol name location)

end Image

namespace Loader

/-- Loads a line. A string with an escape sequence is not supported. -/
def add (l : Loader) : Line → Option Loader
  | .directive name =>
    if name = "data" then some { l with inData := true }
    else if name = "text" then some { l with inData := false }
    else none
  | .label name => do
    let location := if l.inData then .data l.image.data.length else .code l.image.code.length
    return { l with image := ← l.image.define name location }
  | .word name => do
    if l.inData then
      let m := l.image.align
      return { l with image := (← m.define name (.data m.data.length)).addBytes [0, 0, 0, 0] }
    else none
  | .asciiz name value => do
    if l.inData ∧ '\\' ∉ value.toList ∧ '"' ∉ value.toList then
      let m ← l.image.define name (.data l.image.data.length)
      return { l with image := m.addBytes (utf8 value ++ [0]) }
    else none
  | .instr i =>
    if l.inData then none else some { l with image := l.image.addInstr i }
  | .verbatim text => if text = "" then some l else none

def addAll (l : Loader) (f : Fragment) : Option Loader := f.foldlM add l

end Loader

def assemble (text : String) : Option Image := do
  return (← Loader.addAll {} (← readProgram text)).image

end SpimCompiler.Mips
