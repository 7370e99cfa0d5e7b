import SpimCompiler.Mips.Generation
import SpimCompiler.Tree.Validity

namespace SpimCompiler

inductive Emit where
  | asm
  | types
  | diagnostics
deriving DecidableEq, Repr

namespace Emit

def name : Emit → String
  | asm => "asm"
  | types => "types"
  | diagnostics => "diagnostics"

instance : Named Emit := ⟨[asm, types, diagnostics], name, fun a => by cases a <;> rfl⟩

end Emit

structure UnknownEmit where
  value : String
deriving DecidableEq, Repr

def UnknownEmit.message (e : UnknownEmit) : String :=
  s!"invalid option: Unknown emit option: `{e.value}`"

def Emit.parse (s : String) : Except UnknownEmit Emit :=
  match Named.ofName? s with
  | some e => .ok e
  | none => .error ⟨s⟩

inductive CompileError where
  | malformed (defect : Defect)
  | rejected (report : Report)
  | generation (error : GenerationError)

def CompileError.message : CompileError → String
  | malformed defect => "malformed AST: " ++ defect.message
  | rejected report => Report.text report
  | generation error => error.message

namespace Arena

def compileFrom (a : Arena) (root : NodeId) (emit : Emit) :
    Pass Unit (Except CompileError String) := do
  let r ← a.analyze root
  match emit with
  | .types => return .ok (TypeTable.toJson r.types).prettyText
  | .diagnostics => return .ok (Report.toJson r.report).prettyText
  | .asm =>
    if r.isOk then
      match ← a.generate root r with
      | .ok assembly => return .ok assembly.text
      | .error e => return .error (.generation e)
    else
      Pass.log (.refused r.report.size)
      return .error (.rejected r.report)

def compile (a : Arena) (emit : Emit) : Pass Unit (Except CompileError String) :=
  match a.validate with
  | .ok root => a.compileFrom root emit
  | .error defect => return .error (.malformed defect)

end Arena

end SpimCompiler
